import PhelAssist.Proofs.Past
import PhelAssist.Proofs.Shadowing

namespace PhelAssist

namespace SourceTree

section BringsIn

variable (t : SourceTree) (behind : Nat → Prop) [DecidablePred behind] (patterns : Nat → List Nat)

/-- What a list brings into scope, where `behind` tells which vectors are behind the cursor, and
`patterns` which patterns of a vector of pairs are. -/
def bringsIn (scope : Nat) : List VisibleName :=
  if ¬ t.HasKind scope (.collection .list) then []
  else
    match t.parameters? scope with
    | some params =>
      if behind params then t.namesBoundBy [params] .parameter (t.arityOperator scope) else []
    | none =>
      match t.vectorAfterHead? scope with
      | none => []
      | some bindings =>
        let operator := (t.operator? scope).getD ""
        if operator ∈ Words.letLike then
          t.namesBoundBy (patterns bindings) .letBinding operator
        else if operator ∈ Words.loopLike ∧ behind bindings then
          t.namesBoundBy (t.elements bindings).dropLast .letBinding operator
        else []

end BringsIn

variable {t : SourceTree} {behind : Nat → Prop} [DecidablePred behind] {patterns : Nat → List Nat}
  {list : Nat}

theorem scopeBindings_eq_bringsIn (element offset scope : Nat) :
    t.scopeBindings element offset scope =
      t.bringsIn (t.IsBehind · element offset) (fun bindings =>
        (evenPlaced (t.elements bindings)).take (t.visiblePairs bindings element offset)) scope :=
  rfl

theorem mem_of_vectorAfterHead? {v : Nat} (h : t.vectorAfterHead? list = some v) :
    v ∈ (t.elements list).tail ∧ t.HasKind v (.collection .vector) :=
  ⟨List.mem_of_find?_eq_some h, by simpa using List.find?_some h⟩

theorem parameters?_of_function (h : t.OperatorIn list Words.function) :
    t.parameters? list = t.vectorAfterHead? list := by
  simp [parameters?, h]

theorem parameters?_of_not_function (h : ¬ t.OperatorIn list Words.function) :
    t.parameters? list = (t.elements list).head?.bind fun first =>
      (t.container? list).bind fun outer =>
        if t.HasKind first (.collection .vector) ∧ t.OperatorIn outer Words.function then some first
        else none := by
  simp [parameters?, h]

theorem parameters?_cases {v : Nat} (h : t.parameters? list = some v) :
    t.OperatorIn list Words.function ∧ t.vectorAfterHead? list = some v ∨
      ¬ t.OperatorIn list Words.function ∧ (t.elements list).head? = some v ∧
        t.HasKind v (.collection .vector) ∧
        ∃ outer, t.container? list = some outer ∧ t.OperatorIn outer Words.function := by
  by_cases hop : t.OperatorIn list Words.function
  · exact .inl ⟨hop, parameters?_of_function hop ▸ h⟩
  · rw [parameters?_of_not_function hop] at h
    obtain ⟨first, hfirst, h⟩ := Option.bind_eq_some_iff.1 h
    obtain ⟨outer, houter, h⟩ := Option.bind_eq_some_iff.1 h
    split at h
    · next hvector =>
      obtain rfl := Option.some.inj h
      exact .inr ⟨hop, hfirst, hvector.1, outer, houter, hvector.2⟩
    · contradiction

theorem mem_of_parameters? {v : Nat} (h : t.parameters? list = some v) :
    v ∈ t.elements list ∧ t.HasKind v (.collection .vector) := by
  rcases parameters?_cases h with ⟨-, h⟩ | ⟨-, h, hk, -⟩
  · obtain ⟨hmem, hk⟩ := mem_of_vectorAfterHead? h
    exact ⟨List.mem_of_mem_tail hmem, hk⟩
  · exact ⟨List.mem_of_head? h, hk⟩

theorem bringsIn_eq_nil (hparams : ∀ v, t.parameters? list = some v → ¬ behind v)
    (hvector : ∀ v, t.vectorAfterHead? list = some v → ¬ behind v ∧ patterns v = []) :
    t.bringsIn behind patterns list = [] := by
  unfold bringsIn
  split
  · rfl
  · split
    · next v hv => rw [if_neg (hparams v hv)]
    · split
      · rfl
      · next v hv =>
        obtain ⟨hbehind, hpatterns⟩ := hvector v hv
        simp [hbehind, hpatterns, namesBoundBy]

/-- A list without a symbol in its first element brings nothing into scope. -/
theorem bringsIn_of_no_symbol (ht : t.Sound) {first : Nat} {rest : List Nat}
    (helements : t.elements list = first :: rest) (hsymbols : t.symbolsIn first = []) :
    t.bringsIn behind patterns list = [] := by
  unfold bringsIn
  split
  · rfl
  · next hk =>
    have hnone : t.operator? list = none := by
      rw [ht.operator?_eq (Decidable.of_not_not hk), helements]
      simp [hsymbols]
    have hop : ¬ t.OperatorIn list Words.function := by simp [OperatorIn, hnone]
    split
    · next v hv =>
      obtain ⟨hfunction, -⟩ | ⟨-, hhead, -⟩ := parameters?_cases hv
      · exact absurd hfunction hop
      · obtain rfl : first = v := by simpa [helements] using hhead
        simp [namesBoundBy, hsymbols]
    · split
      · rfl
      · simp only [hnone, Option.getD_none]
        rw [if_neg (by decide), if_neg fun h => absurd h.1 (by decide)]

end SourceTree

namespace PartialTree

open SourceTree

/-- The patterns of a vector of pairs that are behind the cursor. -/
def patternsDone (b : PartialTree) (offset vector : Nat) : List Nat :=
  if vector ∈ b.openIds then
    (evenPlaced (b.doneIn offset vector)).take ((b.doneIn offset vector).length / 2)
  else evenPlaced (b.tree.elements vector)

/-- What a list brings into scope as far as the reader knows when it comes to the cursor. -/
def boundSoFar (b : PartialTree) (offset scope : Nat) : List VisibleName :=
  b.tree.bringsIn (· ∉ b.openIds) (b.patternsDone offset) scope

namespace GrowsInto

variable {b : PartialTree} {t : SourceTree} {offset length : Nat}

theorem visiblePairs_of_late (h : b.GrowsInto offset t length) {v : Nat} {c : Collection}
    (hk : t.HasKind v (.collection c)) (hv : b.tree.size ≤ v) :
    t.visiblePairs v (t.nodeAt offset) offset = 0 := by
  have hopen : v ∉ b.openIds := fun hmem =>
    absurd (h.continues.opened_lt v hmem) (Nat.not_lt.2 hv)
  have hwithin : ¬ t.IsWithin (t.nodeAt offset) v := by
    rwa [h.whole.isWithin_nodeAt_iff hk, h.owns_iff hk]
  have hends : ¬ t.EndsBy v offset := fun hend =>
    absurd ((h.isBehind_iff hk).1 ⟨hwithin, hend⟩).1 (Nat.not_lt.2 hv)
  simp [visiblePairs, hwithin, hends]

theorem hasEnded_of_mem_elements (h : b.GrowsInto offset t length) {v e : Nat} {c : Collection}
    (hk : b.tree.HasKind v (.collection c)) (he : e ∈ b.tree.elements v) (hopen : e ∉ b.openIds) :
    b.HasEnded e := by
  have hcontainer := (h.past.sound.tree.mem_elements_iff hk rfl).1 he
  obtain ⟨f, hf, hfe⟩ := h.past.tree.element_of_container h.past.sound.tree hcontainer
  exact h.past.hasEnded hf hfe hopen

theorem hasEnded_of_collection (h : b.GrowsInto offset t length) {v : Nat} {c : Collection}
    (hk : b.tree.HasKind v (.collection c)) (hopen : v ∉ b.openIds) : b.HasEnded v := by
  obtain ⟨f, hf, hfk⟩ := face?_of_kind? hk
  exact h.past.hasEnded hf (by simp [Face.IsElement, hfk]) hopen

/-- The names that a vector of pairs brings into scope are known when the reader comes to the
cursor. -/
theorem names_of_pairs (h : b.GrowsInto offset t length) {v : Nat} {c : Collection}
    (hk : b.tree.HasKind v (.collection c)) (form : String) :
    t.namesBoundBy ((evenPlaced (t.elements v)).take (t.visiblePairs v (t.nodeAt offset) offset))
        .letBinding form =
      b.tree.namesBoundBy (b.patternsDone offset v) .letBinding form := by
  by_cases hopen : v ∈ b.openIds
  · -- the cursor is in the vector
    have howns := (h.owns_iff (h.hasKind hk)).2 hopen
    have hpairs := h.whole.pairBindings_nodeAt (h.hasKind hk) howns form
    rw [pairBindings, h.leftBehind_eq hk] at hpairs
    rw [hpairs, patternsDone, if_pos hopen]
    refine h.agreeOn.namesBoundBy (fun e he => ?_) _ _
    have hdone := (evenPlaced_sublist _).subset (List.mem_of_mem_take he)
    obtain ⟨hmem, hpass⟩ := List.mem_filter.1 hdone
    exact h.hasEnded_of_mem_elements hk hmem (of_decide_eq_true hpass).1
  · obtain ⟨hsame, hall⟩ := h.elements_of_ended hk (h.hasEnded_of_collection hk hopen)
    have hbehind := (h.isBehind_iff (h.hasKind hk)).2 ⟨lt_size_of_hasKind hk, hopen⟩
    have hpairs : t.visiblePairs v (t.nodeAt offset) offset =
        (evenPlaced (b.tree.elements v)).length := by
      simp [visiblePairs, hbehind.1, hbehind.2, hsame, length_evenPlaced]
    rw [hpairs, hsame, List.take_length, patternsDone, if_neg hopen]
    exact h.agreeOn.namesBoundBy (fun e he => hall e ((evenPlaced_sublist _).subset he)) _ _

theorem names_of_vector (h : b.GrowsInto offset t length) {v : Nat} {c : Collection}
    (hk : b.tree.HasKind v (.collection c)) (hopen : v ∉ b.openIds) (binding : Binding)
    (form : String) :
    t.namesBoundBy [v] binding form = b.tree.namesBoundBy [v] binding form ∧
      t.namesBoundBy (t.elements v).dropLast binding form =
        b.tree.namesBoundBy (b.tree.elements v).dropLast binding form := by
  have hended := h.hasEnded_of_collection hk hopen
  obtain ⟨hsame, hall⟩ := h.elements_of_ended hk hended
  rw [hsame]
  exact ⟨h.agreeOn.namesBoundBy (by simpa using hended) _ _,
    h.agreeOn.namesBoundBy (fun e he => hall e ((List.dropLast_sublist _).subset he)) _ _⟩

variable {list : Nat}

/-- As soon as it is settled which vectors matter and what the operator is, nothing that comes later
has a say. -/
theorem scopeBindings_of_settled (h : b.GrowsInto offset t length)
    (hlist : b.tree.HasKind list (.collection .list))
    (hparams : t.parameters? list = b.tree.parameters? list)
    (hvector : b.tree.parameters? list = none →
      t.vectorAfterHead? list = b.tree.vectorAfterHead? list)
    (hoperator : t.operator? list = b.tree.operator? list)
    (harity : t.arityOperator list = b.tree.arityOperator list) :
    t.scopeBindings (t.nodeAt offset) offset list = b.boundSoFar offset list := by
  have hbehind : ∀ v, b.tree.HasKind v (.collection .vector) →
      (t.IsBehind v (t.nodeAt offset) offset ↔ v ∉ b.openIds) := fun v hv => by
    simp [h.isBehind_iff (h.hasKind hv), lt_size_of_hasKind hv]
  rw [scopeBindings_eq_bringsIn, boundSoFar]
  simp only [bringsIn, h.hasKind hlist, hlist, not_true_eq_false, if_false, hparams, harity,
    hoperator]
  cases hp : b.tree.parameters? list with
  | some v =>
    have hv := (mem_of_parameters? hp).2
    by_cases hopen : v ∈ b.openIds
    · simp [hbehind v hv, hopen]
    · simp [hbehind v hv, hopen, h.names_of_vector hv hopen]
  | none =>
    rw [hvector hp]
    cases hafter : b.tree.vectorAfterHead? list with
    | none => rfl
    | some v =>
      have hv := (mem_of_vectorAfterHead? hafter).2
      simp only [h.names_of_pairs hv, hbehind v hv]
      by_cases hopen : v ∈ b.openIds
      · simp [hopen]
      · simp [hopen, h.names_of_vector hv hopen]

theorem scopeBindings_of_late (h : b.GrowsInto offset t length)
    (hparams : ∀ v, t.parameters? list = some v → b.tree.size ≤ v ∨ v ∈ b.openIds)
    (hvector : ∀ v, t.vectorAfterHead? list = some v → b.tree.size ≤ v) :
    t.scopeBindings (t.nodeAt offset) offset list = [] := by
  rw [scopeBindings_eq_bringsIn]
  refine bringsIn_eq_nil (fun v hv hbehind => ?_) fun v hv => ?_
  · obtain ⟨hlt, hopen⟩ := (h.isBehind_iff (mem_of_parameters? hv).2).1 hbehind
    rcases hparams v hv with hle | hmem
    · omega
    · exact hopen hmem
  · have hk := (mem_of_vectorAfterHead? hv).2
    have hle := hvector v hv
    refine ⟨fun hbehind => ?_, by rw [h.visiblePairs_of_late hk hle, List.take_zero]⟩
    exact absurd ((h.isBehind_iff hk).1 hbehind).1 (Nat.not_lt.2 hle)

theorem elements_of_open (h : b.GrowsInto offset t length) {c : Collection}
    (hk : b.tree.HasKind list (.collection c)) {first : Nat} {rest : List Nat}
    (helements : b.tree.elements list = first :: rest) (hopen : first ∈ b.openIds) : rest = [] := by
  have hsound := h.past.sound.tree
  refine List.eq_nil_iff_forall_not_mem.2 fun e he => ?_
  have hsorted := hsound.pairwise_elements hk rfl
  rw [helements] at hsorted
  have hfirst := (hsound.mem_elements_iff hk rfl).1 (helements ▸ List.mem_cons_self)
  have hsecond := (hsound.mem_elements_iff hk rfl).1 (helements ▸ List.mem_cons_of_mem _ he)
  obtain ⟨f, hf, hfe⟩ := h.past.tree.element_of_container hsound hfirst
  obtain ⟨g, hg, hge⟩ := h.past.tree.element_of_container hsound hsecond
  rcases h.past.tree.apart first e f g ((List.pairwise_cons.1 hsorted).1 e he) hf hg hfe hge with
    hup | ⟨hno, -⟩
  · exact hsound.not_above_sibling hfirst hsecond hup
  · exact hno hopen

/-- A list brings nothing into scope before its first element has ended. -/
theorem scopeBindings_of_first_open (h : b.GrowsInto offset t length)
    (hlist : b.tree.HasKind list (.collection .list))
    (hfirst : ∀ x ∈ (b.tree.elements list).head?, x ∈ b.openIds) :
    t.scopeBindings (t.nodeAt offset) offset list = [] ∧ b.boundSoFar offset list = [] := by
  have htail : (b.tree.elements list).tail = [] ∧ ∀ v ∈ b.tree.elements list, v ∈ b.openIds := by
    cases helements : b.tree.elements list with
    | nil => simp
    | cons x xs =>
      have hx := hfirst x (by simp [helements])
      simp [h.elements_of_open hlist helements hx, hx]
  obtain ⟨later, hlater, hle⟩ := h.exists_elements_eq hlist
  constructor
  · refine h.scopeBindings_of_late (fun v hv => ?_) fun v hv => ?_
    · have hmem := (mem_of_parameters? hv).1
      rw [hlater] at hmem
      exact (List.mem_append.1 hmem).symm.imp (hle v) (htail.2 v)
    · have hmem := (mem_of_vectorAfterHead? hv).1
      rw [hlater, List.tail_append] at hmem
      split at hmem
      · exact hle v (List.mem_of_mem_tail hmem)
      · exact hle v (by simpa [htail.1] using hmem)
  · refine bringsIn_eq_nil (fun v hv => ?_) fun v hv => ?_
    · exact not_not_intro (htail.2 v (mem_of_parameters? hv).1)
    · simp [vectorAfterHead?, htail.1] at hv

/-- Once the first element of a list has ended, the vector after it is the one that is there, or a
later one. -/
theorem vectorAfterHead?_cases (h : b.GrowsInto offset t length)
    (hlist : b.tree.HasKind list (.collection .list)) {first : Nat} {rest : List Nat}
    (helements : b.tree.elements list = first :: rest) :
    t.vectorAfterHead? list = b.tree.vectorAfterHead? list ∨
      b.tree.vectorAfterHead? list = none ∧
        ∃ v, t.vectorAfterHead? list = some v ∧ b.tree.size ≤ v := by
  obtain ⟨later, hlater, hle⟩ := h.exists_elements_eq hlist
  have hkinds : rest.find? (fun e => t.HasKind e (.collection .vector)) =
      rest.find? fun e => b.tree.HasKind e (.collection .vector) := by
    rw [← List.head?_filter, ← List.head?_filter]
    congr 1
    refine List.filter_congr fun e he => ?_
    have hlt := (lt_of_mem_elements (helements ▸ List.mem_cons_of_mem first he)).2
    rw [decide_eq_decide, h.hasKind_iff hlt]
  simp only [vectorAfterHead?, hlater, helements, List.cons_append, List.tail_cons,
    List.find?_append, hkinds]
  cases rest.find? fun e => b.tree.HasKind e (.collection .vector) with
  | some v => exact .inl rfl
  | none =>
    cases hfind : later.find? fun e => t.HasKind e (.collection .vector) with
    | none => exact .inl rfl
    | some v => exact .inr ⟨rfl, v, by simp, hle v (List.mem_of_find?_eq_some hfind)⟩

/-- Where the first element of a list has ended and has a symbol, all that decides about arities is
known. -/
theorem operators_of_ended (h : b.GrowsInto offset t length)
    (hlist : b.tree.HasKind list (.collection .list)) {first : Nat} {rest : List Nat}
    (helements : b.tree.elements list = first :: rest) (hended : b.HasEnded first)
    (hsymbols : b.tree.symbolsIn first ≠ []) :
    t.operator? list = b.tree.operator? list ∧ t.arityOperator list = b.tree.arityOperator list ∧
      (t.OperatorIn list Words.function ↔ b.tree.OperatorIn list Words.function) ∧
      (¬ b.tree.OperatorIn list Words.function →
        t.parameters? list = b.tree.parameters? list) := by
  have hoperator := h.operator?_of_ended hlist helements hended
  have hfunction : t.OperatorIn list Words.function ↔ b.tree.OperatorIn list Words.function := by
    simp only [OperatorIn, hoperator]
  have hcontainer := h.container?_eq (lt_size_of_hasKind hlist)
  have houter : ∀ outer, b.tree.container? list = some outer →
      t.operator? outer = b.tree.operator? outer :=
    fun outer => h.operator?_of_container hlist helements hended hsymbols
  refine ⟨hoperator, ?_, hfunction, fun hnot => ?_⟩
  · simp only [arityOperator, hfunction, hoperator, hcontainer]
    cases hc : b.tree.container? list with
    | none => rfl
    | some outer => simp only [Option.bind_some, houter outer hc]
  · obtain ⟨later, hlater, -⟩ := h.exists_elements_eq hlist
    rw [parameters?_of_not_function hnot, parameters?_of_not_function (mt hfunction.1 hnot), hlater,
      helements, hcontainer]
    simp only [List.cons_append, List.head?_cons, Option.bind_some, h.hasKind_iff hended.1]
    cases hc : b.tree.container? list with
    | none => rfl
    | some outer =>
      have hin : t.OperatorIn outer Words.function ↔ b.tree.OperatorIn outer Words.function := by
        simp only [OperatorIn, houter outer hc]
      simp only [Option.bind_some, hin]

/-- What a list around the cursor brings into scope is known when the reader comes to the
cursor. -/
theorem scopeBindings_eq_boundSoFar (h : b.GrowsInto offset t length)
    (hlist : b.tree.HasKind list (.collection .list)) :
    t.scopeBindings (t.nodeAt offset) offset list = b.boundSoFar offset list := by
  cases helements : b.tree.elements list with
  | nil =>
    obtain ⟨hnew, hold⟩ := h.scopeBindings_of_first_open hlist (by simp [helements])
    rw [hnew, hold]
  | cons first rest =>
    by_cases hopen : first ∈ b.openIds
    · obtain ⟨hnew, hold⟩ := h.scopeBindings_of_first_open hlist (by simpa [helements] using hopen)
      rw [hnew, hold]
    have hended := h.hasEnded_of_mem_elements hlist (by simp [helements]) hopen
    -- without a symbol there is no operator, and the first element binds nothing as parameters
    by_cases hsymbols : b.tree.symbolsIn first = []
    · obtain ⟨later, hlater, -⟩ := h.exists_elements_eq hlist
      rw [helements, List.cons_append] at hlater
      rw [boundSoFar, bringsIn_of_no_symbol h.past.sound.tree helements hsymbols,
        scopeBindings_eq_bringsIn, bringsIn_of_no_symbol h.whole.sound hlater]
      rw [(h.agreeOn.symbolsIn hended).1, hsymbols]
    obtain ⟨hoperator, harity, hfunction, hparams⟩ :=
      h.operators_of_ended hlist helements hended hsymbols
    by_cases hf : b.tree.OperatorIn list Words.function
    · have hold := parameters?_of_function hf
      have hnew := parameters?_of_function (hfunction.2 hf)
      rcases h.vectorAfterHead?_cases hlist helements with hsame | ⟨hnone, v, hv, hle⟩
      · exact h.scopeBindings_of_settled hlist (by rw [hold, hnew, hsame]) (fun _ => hsame)
          hoperator harity
      · rw [h.scopeBindings_of_late (by simpa [hnew, hv] using .inl hle) (by simpa [hv] using hle),
          boundSoFar, bringsIn_eq_nil (by simp [hold, hnone]) (by simp [hnone])]
    · rcases h.vectorAfterHead?_cases hlist helements with hsame | ⟨hnone, v, hv, hle⟩
      · exact h.scopeBindings_of_settled hlist (hparams hf) (fun _ => hsame) hoperator harity
      -- a later vector does not matter to an arity, whose parameters come first
      · by_cases hp : b.tree.parameters? list = none
        · rw [h.scopeBindings_of_late (by simp [hparams hf, hp]) (by simpa [hv] using hle),
            boundSoFar, bringsIn_eq_nil (by simp [hp]) (by simp [hnone])]
        · exact h.scopeBindings_of_settled hlist (hparams hf) (fun h => absurd h hp) hoperator harity

end GrowsInto

end PartialTree
end PhelAssist
