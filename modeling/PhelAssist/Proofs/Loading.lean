import Mathlib.Data.Finset.Card
import Mathlib.Data.List.Induction
import PhelAssist.Proofs.Repeats

namespace PhelAssist

/-- Two places of a list with the same name and none of that name between them. -/
def Consecutive (names : List String) (i j : Nat) : Prop :=
  i < j ∧ j < names.length ∧ names[i]? = names[j]? ∧ ∀ k, i < k → k < j → names[k]? ≠ names[j]?

/-- The last place of a name in a list. -/
def IsLastPlace (names : List String) (name : String) (i : Nat) : Prop :=
  names[i]? = some name ∧ ∀ k, i < k → names[k]? ≠ some name

theorem IsLastPlace.lt {names : List String} {name : String} {i : Nat}
    (h : IsLastPlace names name i) : i < names.length := by
  obtain ⟨hi, -⟩ := List.getElem?_eq_some_iff.1 h.1
  exact hi

theorem IsLastPlace.unique {names : List String} {name : String} {i j : Nat}
    (hi : IsLastPlace names name i) (hj : IsLastPlace names name j) : i = j := by
  by_contra hne
  rcases Nat.lt_or_gt_of_ne hne with hlt | hlt
  · exact hi.2 j hlt hj.1
  · exact hj.2 i hlt hi.1

/-- One more name is consecutive to the last place of that name, and changes nothing else. -/
theorem consecutive_concat_iff {names : List String} {name : String} {i j : Nat} :
    Consecutive (names ++ [name]) i j ↔
      Consecutive names i j ∨ j = names.length ∧ IsLastPlace names name i := by
  have hold : ∀ k, k < names.length → (names ++ [name])[k]? = names[k]? :=
    fun k hk => List.getElem?_append_left hk
  have hnew : (names ++ [name])[names.length]? = some name := by simp
  constructor
  · rintro ⟨hij, hj, hsame, hbetween⟩
    rw [List.length_append, List.length_singleton] at hj
    -- only a pair that ends at the new name can be new
    by_cases hlast : j = names.length
    · subst hlast
      rw [hnew, hold i hij] at hsame
      refine .inr ⟨rfl, hsame, ?_⟩
      intro k hik
      by_cases hk : k < names.length
      · have hne := hbetween k hik hk
        rwa [hnew, hold k hk] at hne
      · rw [List.getElem?_eq_none (Nat.le_of_not_lt hk)]
        simp
    · have hj : j < names.length := by omega
      rw [hold i (by omega), hold j hj] at hsame
      refine .inl ⟨hij, hj, hsame, ?_⟩
      intro k hik hkj
      have hne := hbetween k hik hkj
      rwa [hold k (by omega), hold j hj] at hne
  · intro h
    have hlength : (names ++ [name]).length = names.length + 1 := by simp
    rcases h with ⟨hij, hj, hsame, hbetween⟩ | ⟨rfl, hplace⟩
    · refine ⟨hij, by omega, ?_, ?_⟩
      · rw [hold i (by omega), hold j hj, hsame]
      · intro k hik hkj
        rw [hold k (by omega), hold j hj]
        exact hbetween k hik hkj
    · refine ⟨hplace.lt, by omega, ?_, ?_⟩
      · rw [hold i hplace.lt, hnew, hplace.1]
      · intro k hik hk
        rw [hold k hk, hnew]
        exact hplace.2 k hik

/-- The groups of a list by a key make up the list, if all keys are there and none twice. -/
theorem perm_flatMap_filter {α β : Type} [DecidableEq β] (key : α → β) {keys : List β}
    (hkeys : keys.Nodup) {l : List α} (hall : ∀ x ∈ l, key x ∈ keys) :
    (keys.flatMap fun k => l.filter fun x => key x = k).Perm l := by
  induction keys generalizing l with
  | nil =>
    have hnil : l = [] := by
      apply List.eq_nil_iff_forall_not_mem.2
      intro x hx
      exact List.not_mem_nil (hall x hx)
    rw [hnil]
    exact .refl []
  | cons k keys ih =>
    obtain ⟨hk, hkeys⟩ := List.nodup_cons.1 hkeys
    -- what is not in the first group is spread over the others
    have hrest : (keys.flatMap fun k' => l.filter fun x => key x = k') = keys.flatMap fun k' =>
        (l.filter fun x => !decide (key x = k)).filter fun x => key x = k' := by
      apply List.flatMap_congr
      intro k' hk'
      rw [List.filter_filter]
      apply List.filter_congr
      intro x _
      by_cases hx : key x = k'
      · have hne : k' ≠ k := fun heq => hk (heq ▸ hk')
        simp [hx, hne]
      · simp [hx]
    have hcovered : ∀ x ∈ l.filter fun x => !decide (key x = k), key x ∈ keys := by
      intro x hx
      obtain ⟨hx, hother⟩ := List.mem_filter.1 hx
      have hne : key x ≠ k := by simpa using hother
      exact (List.mem_cons.1 (hall x hx)).resolve_left hne
    rw [List.flatMap_cons, hrest]
    exact ((ih hkeys hcovered).append_left _).trans (List.filter_append_perm _ l)

namespace Catalog

/-- The record of two entries of one name, by their places. -/
def takeoverAt? (entries : List Entry) (places : Nat × Nat) : Option Takeover := do
  let loser ← entries[places.1]?
  let winner ← entries[places.2]?
  return ⟨winner.name, loser.ns, winner.ns⟩

/-- One record for each two entries of a name with none of that name between them, in the order of
the later entries. `places` are the places of the two. -/
structure Chronicle (entries : List Entry) (takeovers : List Takeover)
    (places : List (Nat × Nat)) : Prop where
  ordered : places.Pairwise fun p q => p.2 < q.2
  consecutive : ∀ i j, (i, j) ∈ places ↔ Consecutive (entries.map (·.name)) i j
  records : places.map (takeoverAt? entries) = takeovers.map some

/-- What a catalog tells of the entries that were loaded. A name stands for the last entry that
bears it. The functions of a namespace are its entries in load order; the namespaces come by their
first entries, each once, so that every entry is in one group. For each two entries of a name with
none of that name between them there is one record of the takeover, in the order of the later
entries; so every entry either brings a new name or takes one over. -/
structure Tells (r : Catalog) (entries : List Entry) : Prop where
  loaded : r.entries = entries
  latest : ∀ name, r.get? name = entries.reverse.find? fun e => e.name = name
  unknown : ∀ name, r.get? name = none ↔ ∀ e ∈ entries, e.name ≠ name
  contains : ∀ name, r.Contains name ↔ ∃ e ∈ entries, e.name = name
  groups : ∀ ns, r.inNamespace ns = entries.filter fun e => e.ns = ns
  namespaces : ∀ ns, ns ∈ r.namespaces ↔ ∃ e ∈ entries, e.ns = ns
  appearance : r.namespaces.Pairwise fun a b =>
    (entries.map (·.ns)).idxOf a < (entries.map (·.ns)).idxOf b
  partition : (r.namespaces.flatMap r.inNamespace).Perm entries
  takeovers : ∃ places, Chronicle entries r.takeovers places
  balance : entries.length = (entries.map (·.name)).toFinset.card + r.takeovers.length

theorem ofList_concat (entries : List Entry) (e : Entry) :
    ofList (entries ++ [e]) = (ofList entries).insert e := by
  rw [ofList, List.foldl_append]
  rfl

theorem entries_ofList (entries : List Entry) : (ofList entries).entries = entries := by
  induction entries using List.reverseRecOn with
  | nil => rfl
  | append_singleton entries e ih =>
    rw [ofList_concat]
    exact congrArg (· ++ [e]) ih

theorem takeovers_insert (r : Catalog) (e : Entry) : (r.insert e).takeovers =
    r.takeovers ++ ((r.get? e.name).map fun loser => ⟨e.name, loser.ns, e.ns⟩).toList :=
  rfl

theorem namespaces_insert (r : Catalog) (e : Entry) : (r.insert e).namespaces =
    r.namespaces ++ if e.ns ∈ r.namespaces then [] else [e.ns] := by
  change (addToGroup e r.groups).map (·.1) =
    r.groups.map (·.1) ++ if e.ns ∈ r.groups.map (·.1) then [] else [e.ns]
  induction r.groups with
  | nil => rfl
  | cons group rest ih =>
    obtain ⟨ns, es⟩ := group
    rw [addToGroup]
    by_cases hns : ns = e.ns
    · simp [hns]
    · have hmem : e.ns ∈ ns :: rest.map (·.1) ↔ e.ns ∈ rest.map (·.1) := by
        rw [List.mem_cons, or_iff_right (Ne.symm hns)]
      rw [if_neg hns, List.map_cons, List.map_cons, ih, List.cons_append]
      simp only [hmem]

theorem get?_eq_none_iff (entries : List Entry) (name : String) :
    (ofList entries).get? name = none ↔ ∀ e ∈ entries, e.name ≠ name := by
  rw [get?_ofList, List.find?_eq_none]
  simp

theorem exists_isLastPlace {entries : List Entry} {name : String} {e : Entry}
    (h : (ofList entries).get? name = some e) :
    ∃ i, entries[i]? = some e ∧ IsLastPlace (entries.map (·.name)) name i := by
  rw [get?_ofList] at h
  -- the search runs from the end, so what it passes was loaded later
  obtain ⟨hname, later, earlier, hsplit, hlater⟩ := List.find?_eq_some_iff_append.1 h
  have hentries : entries = earlier.reverse ++ e :: later.reverse := by
    rw [← List.reverse_reverse entries, hsplit]
    simp
  have hplace : entries[earlier.length]? = some e := by
    rw [hentries]
    simp
  refine ⟨earlier.length, hplace, ?_, ?_⟩
  · rw [List.getElem?_map, hplace]
    simpa using hname
  · intro k hk hsame
    obtain ⟨x, hx, hxname⟩ := Option.map_eq_some_iff.1 ((List.getElem?_map ..).symm.trans hsame)
    have hlength : earlier.reverse.length ≤ k := by
      rw [List.length_reverse]
      omega
    rw [hentries, List.getElem?_append_right hlength, List.length_reverse,
      List.getElem?_cons, if_neg (by omega)] at hx
    have hmem : x ∈ later := List.mem_reverse.1 (List.mem_of_getElem? hx)
    simpa [hxname] using hlater x hmem

theorem not_isLastPlace {entries : List Entry} {name : String}
    (h : (ofList entries).get? name = none) (i : Nat) :
    ¬ IsLastPlace (entries.map (·.name)) name i := by
  intro hplace
  obtain ⟨e, he, hname⟩ := List.mem_map.1 (List.mem_of_getElem? hplace.1)
  exact (get?_eq_none_iff entries name).1 h e he hname

namespace Chronicle

variable {entries : List Entry} {takeovers : List Takeover} {places : List (Nat × Nat)}

theorem lt_length (h : Chronicle entries takeovers places) {p : Nat × Nat} (hp : p ∈ places) :
    p.1 < p.2 ∧ p.2 < entries.length := by
  obtain ⟨hlt, hlength, -⟩ := (h.consecutive p.1 p.2).1 hp
  rw [List.length_map] at hlength
  exact ⟨hlt, hlength⟩

/-- The records so far are not changed by one more entry. -/
theorem records_concat (h : Chronicle entries takeovers places) (e : Entry) :
    places.map (takeoverAt? (entries ++ [e])) = takeovers.map some := by
  rw [← h.records]
  apply List.map_congr_left
  intro p hp
  obtain ⟨hlt, hlength⟩ := h.lt_length hp
  rw [takeoverAt?, takeoverAt?, List.getElem?_append_left hlength,
    List.getElem?_append_left (hlt.trans hlength)]

/-- An entry with a new name takes nothing over. -/
theorem concat_new (h : Chronicle entries takeovers places) {e : Entry}
    (hnew : ∀ i, ¬ IsLastPlace (entries.map (·.name)) e.name i) :
    Chronicle (entries ++ [e]) takeovers places where
  ordered := h.ordered
  consecutive := by
    intro i j
    rw [List.map_append, List.map_singleton, consecutive_concat_iff, h.consecutive]
    simp [hnew i]
  records := h.records_concat e

/-- An entry takes its name over from the last entry that bore it. -/
theorem concat_taken (h : Chronicle entries takeovers places) {e loser : Entry} {i : Nat}
    (hloser : entries[i]? = some loser) (hplace : IsLastPlace (entries.map (·.name)) e.name i) :
    Chronicle (entries ++ [e]) (takeovers ++ [⟨e.name, loser.ns, e.ns⟩])
      (places ++ [(i, entries.length)]) where
  ordered := by
    rw [List.pairwise_append]
    refine ⟨h.ordered, List.pairwise_singleton _ _, ?_⟩
    intro p hp q hq
    rw [List.mem_singleton.1 hq]
    exact (h.lt_length hp).2
  consecutive := by
    intro i' j
    rw [List.map_append, List.map_singleton, consecutive_concat_iff, List.mem_append,
      h.consecutive, List.mem_singleton, Prod.mk.injEq, List.length_map]
    constructor
    · rintro (hold | ⟨rfl, rfl⟩)
      · exact .inl hold
      · exact .inr ⟨rfl, hplace⟩
    · rintro (hold | ⟨rfl, hplace'⟩)
      · exact .inl hold
      · exact .inr ⟨hplace'.unique hplace, rfl⟩
  records := by
    have hi : i < entries.length := by
      simpa using hplace.lt
    have hrecord : takeoverAt? (entries ++ [e]) (i, entries.length) =
        some ⟨e.name, loser.ns, e.ns⟩ := by
      simp [takeoverAt?, List.getElem?_append_left hi, hloser]
    rw [List.map_append, List.map_append, h.records_concat e, List.map_singleton,
      List.map_singleton, hrecord]

end Chronicle

theorem exists_chronicle (entries : List Entry) :
    ∃ places, Chronicle entries (ofList entries).takeovers places := by
  induction entries using List.reverseRecOn with
  | nil =>
    refine ⟨[], .nil, ?_, rfl⟩
    intro i j
    simp [Consecutive]
  | append_singleton entries e ih =>
    obtain ⟨places, h⟩ := ih
    rw [ofList_concat, takeovers_insert]
    cases hget : (ofList entries).get? e.name with
    | none =>
      refine ⟨places, ?_⟩
      simpa using h.concat_new (not_isLastPlace hget)
    | some loser =>
      obtain ⟨i, hloser, hplace⟩ := exists_isLastPlace hget
      exact ⟨_, h.concat_taken hloser hplace⟩

theorem length_eq_names_add_takeovers (entries : List Entry) : entries.length =
    (entries.map (·.name)).toFinset.card + (ofList entries).takeovers.length := by
  induction entries using List.reverseRecOn with
  | nil => rfl
  | append_singleton entries e ih =>
    have hnames : ((entries ++ [e]).map (·.name)).toFinset =
        Insert.insert e.name (entries.map (·.name)).toFinset := by
      ext name
      simp
    rw [ofList_concat, takeovers_insert, hnames, List.length_append, List.length_append, ih]
    cases hget : (ofList entries).get? e.name with
    | none =>
      have hnew : e.name ∉ (entries.map (·.name)).toFinset := by
        simpa using (get?_eq_none_iff entries e.name).1 hget
      rw [Finset.card_insert_of_notMem hnew]
      simp only [Option.map_none, Option.toList_none, List.length_nil, List.length_singleton]
      omega
    | some loser =>
      obtain ⟨i, -, hplace⟩ := exists_isLastPlace hget
      have htaken : e.name ∈ (entries.map (·.name)).toFinset :=
        List.mem_toFinset.2 (List.mem_of_getElem? hplace.1)
      rw [Finset.insert_eq_of_mem htaken]
      simp only [Option.map_some, Option.toList_some, List.length_singleton]
      omega

theorem mem_namespaces_ofList {entries : List Entry} {ns : String} :
    ns ∈ (ofList entries).namespaces ↔ ns ∈ entries.map (·.ns) := by
  induction entries using List.reverseRecOn generalizing ns with
  | nil => rfl
  | append_singleton entries e ih =>
    rw [ofList_concat, namespaces_insert, List.map_append, List.mem_append, List.mem_append, ih,
      List.map_singleton, List.mem_singleton]
    by_cases hseen : e.ns ∈ (ofList entries).namespaces
    · have hmem : ns = e.ns → ns ∈ entries.map (·.ns) := fun heq => heq ▸ ih.1 hseen
      rw [if_pos hseen, or_iff_left List.not_mem_nil, or_iff_left_of_imp hmem]
    · rw [if_neg hseen, List.mem_singleton]

/-- The namespaces come in the order of their first entries. -/
theorem pairwise_namespaces_ofList (entries : List Entry) :
    (ofList entries).namespaces.Pairwise fun a b =>
      (entries.map (·.ns)).idxOf a < (entries.map (·.ns)).idxOf b := by
  induction entries using List.reverseRecOn with
  | nil => exact .nil
  | append_singleton entries e ih =>
    rw [ofList_concat, namespaces_insert, List.map_append, List.map_singleton]
    have hold : ∀ ns ∈ (ofList entries).namespaces,
        (entries.map (·.ns) ++ [e.ns]).idxOf ns = (entries.map (·.ns)).idxOf ns :=
      fun ns hns => List.idxOf_append_of_mem (mem_namespaces_ofList.1 hns)
    have hfirst : (ofList entries).namespaces.Pairwise fun a b =>
        (entries.map (·.ns) ++ [e.ns]).idxOf a < (entries.map (·.ns) ++ [e.ns]).idxOf b := by
      apply ih.imp_of_mem
      intro a b ha hb hlt
      rwa [hold a ha, hold b hb]
    -- a new namespace has its first place behind all old entries
    by_cases hseen : e.ns ∈ (ofList entries).namespaces
    · rwa [if_pos hseen, List.append_nil]
    · rw [if_neg hseen, List.pairwise_append]
      refine ⟨hfirst, List.pairwise_singleton _ _, ?_⟩
      intro a ha b hb
      have hnew : e.ns ∉ entries.map (·.ns) := fun h => hseen (mem_namespaces_ofList.2 h)
      rw [List.mem_singleton.1 hb, hold a ha, List.idxOf_append_of_notMem hnew]
      exact Nat.lt_add_right _ (List.idxOf_lt_length_iff.2 (mem_namespaces_ofList.1 ha))

theorem nodup_namespaces_ofList (entries : List Entry) : (ofList entries).namespaces.Nodup := by
  apply (pairwise_namespaces_ofList entries).imp
  rintro a b hlt rfl
  exact Nat.lt_irrefl _ hlt

theorem perm_groups_ofList (entries : List Entry) :
    ((ofList entries).namespaces.flatMap (ofList entries).inNamespace).Perm entries := by
  have hgroups : (ofList entries).inNamespace = fun ns => entries.filter fun e => e.ns = ns :=
    funext (inNamespace_ofList entries)
  rw [hgroups]
  apply perm_flatMap_filter Entry.ns (nodup_namespaces_ofList entries)
  intro e he
  exact mem_namespaces_ofList.2 (List.mem_map_of_mem he)

/-- Loading entries one after another gives the catalog of the whole list. -/
theorem tells_ofList (entries : List Entry) : (ofList entries).Tells entries where
  loaded := entries_ofList entries
  latest := get?_ofList entries
  unknown := get?_eq_none_iff entries
  contains := by
    intro name
    rw [← not_iff_not, not_contains_iff, get?_eq_none_iff]
    simp
  groups := inNamespace_ofList entries
  namespaces := by
    intro ns
    rw [mem_namespaces_ofList, List.mem_map]
  appearance := pairwise_namespaces_ofList entries
  partition := perm_groups_ofList entries
  takeovers := exists_chronicle entries
  balance := length_eq_names_add_takeovers entries

end Catalog

end PhelAssist
