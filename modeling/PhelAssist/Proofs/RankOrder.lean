import Mathlib.Data.List.Sort
import PhelAssist.Proofs.Repeats

namespace PhelAssist.Candidate

/-- A candidate of one of the namespaces that are offered. -/
def IsOffered (c : Candidate) : Prop := ∃ ns ∈ offeredNamespaces, c.ns = some ns

instance (c : Candidate) : Decidable c.IsOffered := inferInstanceAs (Decidable (∃ ns ∈ _, _))

/-- Namespaces in the order in which they are offered, then the higher priority first, then labels
by their code points. -/
def Precedes (a b : Candidate) : Prop :=
  ∃ i j, a.rank? = some i ∧ b.rank? = some j ∧
    (i < j ∨ i = j ∧ (b.priority < a.priority ∨ a.priority = b.priority ∧ a.label < b.label))

/-- `ranked` has the first candidate of each namespace that is offered and each label, once and in
order, and nothing else. -/
structure IsRanking (candidates ranked : List Candidate) : Prop where
  offered : ∀ c ∈ ranked, c.IsOffered
  kept : ∀ ns ∈ offeredNamespaces, ∀ label : String,
    ranked.filter (fun c => c.key = (some ns, label)) =
      (candidates.find? fun c => c.key = (some ns, label)).toList
  ordered : ranked.Pairwise Precedes

section

variable {a b c : Candidate}

theorem isSome_rank?_iff : c.rank?.isSome = true ↔ c.IsOffered := by
  unfold IsOffered rank? offeredRank?
  cases hns : c.ns with
  | none => simp
  | some ns => simp [List.isSome_idxOf?]

/-- No two namespaces are offered at one place. -/
theorem ns_eq_of_rank? {i : Nat} (ha : a.rank? = some i) (hb : b.rank? = some i) : a.ns = b.ns := by
  obtain ⟨ns, hns, ha⟩ := Option.bind_eq_some_iff.1 ha
  obtain ⟨ns', hns', hb⟩ := Option.bind_eq_some_iff.1 hb
  obtain ⟨hi, hat, -⟩ := List.idxOf?_eq_some_iff.1 ha
  obtain ⟨_, hat', -⟩ := List.idxOf?_eq_some_iff.1 hb
  rw [hns, hns', ← hat, ← hat']

theorem RankedBefore.trans (hab : a.RankedBefore b) (hbc : b.RankedBefore c) :
    a.RankedBefore c := by
  unfold RankedBefore at hab hbc ⊢
  rcases hab with hab | ⟨hab, hab'⟩
  · rcases hbc with hbc | ⟨hbc, -⟩
    · exact .inl (Nat.lt_trans hab hbc)
    · exact .inl (hbc ▸ hab)
  · rcases hbc with hbc | ⟨hbc, hbc'⟩
    · exact .inl (hab ▸ hbc)
    · refine .inr ⟨hab.trans hbc, ?_⟩
      rcases hab' with hab' | ⟨hab', hlabel⟩
      · exact .inl (by omega)
      · rcases hbc' with hbc' | ⟨hbc', hlabel'⟩
        · exact .inl (by omega)
        · exact .inr ⟨hab'.trans hbc', String.le_trans hlabel hlabel'⟩

theorem RankedBefore.total (a b : Candidate) : a.RankedBefore b ∨ b.RankedBefore a := by
  unfold RankedBefore
  rcases Nat.lt_trichotomy (a.rank?.getD 0) (b.rank?.getD 0) with hrank | hrank | hrank
  · exact .inl (.inl hrank)
  · rcases Int.lt_trichotomy a.priority b.priority with hpriority | hpriority | hpriority
    · exact .inr (.inr ⟨hrank.symm, .inl hpriority⟩)
    · rcases String.le_total a.label b.label with hlabel | hlabel
      · exact .inl (.inr ⟨hrank, .inr ⟨hpriority, hlabel⟩⟩)
      · exact .inr (.inr ⟨hrank.symm, .inr ⟨hpriority.symm, hlabel⟩⟩)
    · exact .inl (.inr ⟨hrank, .inl hpriority⟩)
  · exact .inr (.inl hrank)

/-- Candidates that can be told apart are never level. -/
theorem RankedBefore.precedes (h : a.RankedBefore b) (ha : a.rank?.isSome = true)
    (hb : b.rank?.isSome = true) (hkey : a.key ≠ b.key) : a.Precedes b := by
  obtain ⟨i, hi⟩ := Option.isSome_iff_exists.1 ha
  obtain ⟨j, hj⟩ := Option.isSome_iff_exists.1 hb
  refine ⟨i, j, hi, hj, ?_⟩
  simp only [RankedBefore, hi, hj, Option.getD_some] at h
  rcases h with h | ⟨hij, h | ⟨hpriority, hlabel⟩⟩
  · exact .inl h
  · exact .inr ⟨hij, .inl h⟩
  · refine .inr ⟨hij, .inr ⟨hpriority, ?_⟩⟩
    -- the same namespace with the same label would be the same key
    have hns : a.ns = b.ns := ns_eq_of_rank? hi (hij ▸ hj)
    apply String.not_le.1
    intro hback
    apply hkey
    rw [key, key, hns, String.le_antisymm hlabel hback]

theorem Precedes.asymm (hab : a.Precedes b) : ¬ b.Precedes a := by
  intro hba
  obtain ⟨i, j, hi, hj, h⟩ := hab
  obtain ⟨j', i', hj', hi', h'⟩ := hba
  obtain rfl : j = j' := Option.some.inj (hj.symm.trans hj')
  obtain rfl : i = i' := Option.some.inj (hi.symm.trans hi')
  rcases h with h | ⟨hij, h | ⟨hpriority, hlabel⟩⟩
  · omega
  · omega
  · rcases h' with h' | ⟨-, h' | ⟨-, hlabel'⟩⟩
    · omega
    · omega
    · exact String.lt_asymm hlabel hlabel'

end

instance : Std.Irrefl Precedes := ⟨fun _ h => h.asymm h⟩

instance : Std.Antisymm Precedes := ⟨fun _ _ hab hba => absurd hba hab.asymm⟩

theorem nodup_firstOfEach (taken : List (Option String × String)) (candidates : List Candidate) :
    ((firstOfEach taken candidates).map key).Nodup := by
  induction candidates generalizing taken with
  | nil => simp [firstOfEach]
  | cons c rest ih =>
    rw [firstOfEach]
    split
    · exact ih taken
    · rw [List.map_cons, List.nodup_cons]
      refine ⟨?_, ih _⟩
      intro hmem
      obtain ⟨x, hx, hkey⟩ := List.mem_map.1 hmem
      have hfree := (mem_firstOfEach_iff.1 hx).1
      rw [hkey] at hfree
      exact hfree List.mem_cons_self

variable (candidates : List Candidate)

theorem nodup_rank : ((rank candidates).map key).Nodup := by
  have hperm := List.mergeSort_perm (firstOfEach [] (candidates.filter (·.rank?.isSome)))
    fun a b => a.RankedBefore b
  exact (hperm.map key).nodup_iff.2 (nodup_firstOfEach _ _)

theorem pairwise_rank : (rank candidates).Pairwise Precedes := by
  have hsorted : (rank candidates).Pairwise RankedBefore := by
    have hle := @List.pairwise_mergeSort _ (fun a b => decide (a.RankedBefore b))
      (fun a b c hab hbc => decide_eq_true ((of_decide_eq_true hab).trans (of_decide_eq_true hbc)))
      (fun a b => by simpa using RankedBefore.total a b)
      (firstOfEach [] (candidates.filter (·.rank?.isSome)))
    exact hle.imp of_decide_eq_true
  have hdistinct := List.pairwise_map.1 (nodup_rank candidates)
  apply (hsorted.and hdistinct).imp_of_mem
  intro a b ha hb h
  exact h.1.precedes (mem_rank_iff.1 ha).1 (mem_rank_iff.1 hb).1 h.2

variable {candidates}

theorem find?_key_eq_some_iff {c : Candidate} (h : (candidates.map key).Nodup) :
    candidates.find? (fun x => x.key = c.key) = some c ↔ c ∈ candidates := by
  constructor
  · intro hfind
    exact List.mem_of_find?_eq_some hfind
  · intro hmem
    have hsome : (candidates.find? fun x => x.key = c.key).isSome := by
      rw [List.find?_isSome]
      exact ⟨c, hmem, by simp⟩
    obtain ⟨x, hx⟩ := Option.isSome_iff_exists.1 hsome
    have hkey : x.key = c.key := by simpa using List.find?_some hx
    rw [hx, List.inj_on_of_nodup_map h (List.mem_of_find?_eq_some hx) hmem hkey]

theorem isRanking_of_rank (candidates : List Candidate) :
    IsRanking candidates (rank candidates) := by
  refine ⟨fun c hc => isSome_rank?_iff.1 (mem_rank_iff.1 hc).1, ?_, pairwise_rank candidates⟩
  intro ns hns label
  have hnodup : ((rank candidates).filter fun c => c.key = (some ns, label)).Nodup :=
    (List.Nodup.of_map key (nodup_rank candidates)).filter _
  have hmem : ∀ c, c ∈ (rank candidates).filter (fun c => c.key = (some ns, label)) ↔
      (candidates.find? fun c => c.key = (some ns, label)) = some c := by
    intro c
    rw [List.mem_filter, mem_rank_iff, decide_eq_true_eq]
    constructor
    · rintro ⟨⟨-, hfirst⟩, hkey⟩
      rwa [hkey] at hfirst
    · intro hfirst
      have hkey : c.key = (some ns, label) := by simpa using List.find?_some hfirst
      refine ⟨⟨isSome_rank?_iff.2 ⟨ns, hns, (Prod.mk.inj hkey).1⟩, ?_⟩, hkey⟩
      rwa [hkey]
  cases hfind : candidates.find? fun c => c.key = (some ns, label) with
  | none =>
    apply List.eq_nil_iff_forall_not_mem.2
    intro c hc
    rw [hmem, hfind] at hc
    contradiction
  | some c =>
    apply List.perm_singleton.1
    rw [List.perm_ext_iff_of_nodup hnodup (List.nodup_singleton c)]
    intro x
    rw [hmem, hfind, List.mem_singleton, Option.some.injEq, eq_comm]

theorem IsRanking.mem_iff {ranked : List Candidate} (h : IsRanking candidates ranked)
    {c : Candidate} : c ∈ ranked ↔
      c.IsOffered ∧ candidates.find? (fun x => x.key = c.key) = some c := by
  have hfirst : ∀ ns ∈ offeredNamespaces, c.ns = some ns →
      (c ∈ ranked ↔ candidates.find? (fun x => x.key = c.key) = some c) := by
    intro ns hns hc
    have hkept := h.kept ns hns c.label
    rw [← hc] at hkept
    rw [← Option.mem_toList, show c.key = (c.ns, c.label) from rfl, ← hkept, List.mem_filter]
    simp [key]
  constructor
  · intro hc
    obtain ⟨ns, hns, heq⟩ := h.offered c hc
    exact ⟨⟨ns, hns, heq⟩, (hfirst ns hns heq).1 hc⟩
  · intro hc
    obtain ⟨⟨ns, hns, heq⟩, hfind⟩ := hc
    exact (hfirst ns hns heq).2 hfind

/-- Lists with the same candidates in strict order are the same. -/
theorem eq_of_mem_iff {ranked ranked' : List Candidate} (h : ranked.Pairwise Precedes)
    (h' : ranked'.Pairwise Precedes) (hmem : ∀ c, c ∈ ranked ↔ c ∈ ranked') : ranked = ranked' :=
  List.Subset.antisymm_of_pairwise h h' (fun c => (hmem c).1) fun c => (hmem c).2

/-- The ranking depends on nothing but the first candidates of the keys. -/
theorem rank_congr {candidates' : List Candidate}
    (h : ∀ c : Candidate, c.rank?.isSome = true →
      (candidates.find? (fun x => x.key = c.key) = some c ↔
        candidates'.find? (fun x => x.key = c.key) = some c)) :
    rank candidates = rank candidates' := by
  apply eq_of_mem_iff (pairwise_rank candidates) (pairwise_rank candidates')
  intro c
  rw [mem_rank_iff, mem_rank_iff]
  exact and_congr_right (h c)

theorem rank_rank (candidates : List Candidate) : rank (rank candidates) = rank candidates := by
  apply rank_congr
  intro c hrank
  rw [find?_key_eq_some_iff (nodup_rank candidates), mem_rank_iff]
  simp [hrank]

theorem rank_perm {shuffled : List Candidate} (hperm : candidates.Perm shuffled)
    (hdistinct : candidates.Pairwise fun a b => a.IsOffered → a.key ≠ b.key) :
    rank shuffled = rank candidates := by
  have hkeys : ((candidates.filter (·.rank?.isSome)).map key).Nodup := by
    rw [List.Nodup, List.pairwise_map, List.pairwise_filter]
    apply hdistinct.imp
    intro a b hab ha _
    exact hab (isSome_rank?_iff.1 ha)
  have hfilter := hperm.filter (·.rank?.isSome)
  have hkeys' := (hfilter.map key).nodup_iff.1 hkeys
  apply rank_congr
  intro c hrank
  rw [← find?_filter_rank hrank shuffled, ← find?_filter_rank hrank candidates,
    find?_key_eq_some_iff hkeys, find?_key_eq_some_iff hkeys', hfilter.mem_iff]

/-- Ranking gives the one list that has the first candidate of each offered namespace and label in
strict order. Ranking again changes nothing, and the order in which the candidates come does not
matter if no two of one namespace have the same label. -/
theorem isRanking_iff_eq_rank (candidates : List Candidate) :
    (∀ ranked, IsRanking candidates ranked ↔ ranked = rank candidates) ∧
      rank (rank candidates) = rank candidates ∧
      ∀ shuffled, candidates.Perm shuffled →
        (candidates.Pairwise fun a b => a.IsOffered → a.key ≠ b.key) →
        rank shuffled = rank candidates := by
  refine ⟨?_, rank_rank candidates, fun shuffled => rank_perm⟩
  intro ranked
  constructor
  · intro h
    apply eq_of_mem_iff h.ordered (pairwise_rank candidates)
    intro c
    rw [h.mem_iff, (isRanking_of_rank candidates).mem_iff]
  · intro h
    rw [h]
    exact isRanking_of_rank candidates

/-- Three functions in another order, two of them with one name, and a namespace that is not
offered. -/
theorem isRanking_iff_eq_rank_shuffled :
    let a := ofEntry ⟨"f", "str", "(f)", "", -1⟩
    let b := ofEntry ⟨"f", "core", "(f)", "", -1⟩
    let c := ofEntry ⟨"g", "str", "(g)", "", 3⟩
    let d := ofEntry ⟨"g", "vendor", "(g)", "", 9⟩
    [a, b, c, d, d].Perm [d, c, d, b, a] ∧
      ([a, b, c, d, d].Pairwise fun x y => x.IsOffered → x.key ≠ y.key) ∧
      rank [d, c, d, b, a] = rank [a, b, c, d, d] := by
  intro a b c d
  have hperm : [a, b, c, d, d].Perm [d, c, d, b, a] := by decide
  have hdistinct : [a, b, c, d, d].Pairwise fun x y => x.IsOffered → x.key ≠ y.key := by decide
  exact ⟨hperm, hdistinct, (isRanking_iff_eq_rank _).2.2 _ hperm hdistinct⟩

end PhelAssist.Candidate
