import PhelAssist.Proofs.BodyScope
import PhelAssist.Proofs.Pairs

namespace PhelAssist

namespace SourceTree

variable {t : SourceTree} {vector offset length : Nat}

/-- Whether the pattern of a pair is in scope. Around the cursor, the value of the pair has to be
there and complete, and the cursor is not on it; from outside, the binding vector has to lie before
the cursor as a whole. -/
def PairInScope (t : SourceTree) (vector element offset index : Nat) : Prop :=
  if t.IsWithin element vector then
    ∃ value, (t.elements vector)[2 * index + 1]? = some value ∧ t.EndsBy value offset ∧
      ¬ t.IsWithin element value
  else t.EndsBy vector offset

/-- A symbol that a pattern in scope binds: any one in the pattern, but for the rest sign. -/
structure BoundByPair (t : SourceTree) (vector element offset : Nat) (s : VisibleName) : Prop where
  symbol : t.HasKind s.node (.token .symbol)
  named : t.text? s.node = some s.name
  notRest : s.name ≠ Words.restSign
  pattern : ∃ index pattern, (t.elements vector)[2 * index]? = some pattern ∧
    t.IsWithin s.node pattern ∧ t.PairInScope vector element offset index

namespace OfText

/-- An element that has ended owns the cursor only if the innermost node is found in it. -/
theorem owns_iff_isWithin (ht : t.OfText length) {e p : Nat} (he : t.container? e = some p)
    (hend : t.EndsBy e offset) : t.Owns e offset ↔ t.IsWithin (t.nodeAt offset) e := by
  obtain ⟨f, hf, hfe⟩ := ht.element_of_container he
  constructor
  · intro howns
    have hspan := (ht.spaced.ended e f hf hfe List.not_mem_nil).1
    have hstop := (endsBy_iff hf).1 hend
    have hbounds := ht.bounds_of_owns hf hfe howns
    rcases ht.element_kind hf hfe with ⟨k, hk⟩ | ⟨c, hk⟩
    · have hkind : t.HasKind e (.token k) := by rw [HasKind, kind?_of_face? hf, hk]
      have hnode := ht.nodeAt_eq_of_token hkind (span?_of_face? hf) (by omega) hbounds.2
      exact .inl hnode
    · have hkind : t.HasKind e (.collection c) := by rw [HasKind, kind?_of_face? hf, hk]
      exact (ht.isWithin_nodeAt_iff hkind).2 howns
  · intro hwithin
    exact ht.owns_of_isWithin hf hfe hwithin

/-- Around the cursor, the pairs that are counted are those whose value is left behind. -/
theorem lt_visiblePairs_iff_of_owns (ht : t.OfText length) {c : Collection}
    (hk : t.HasKind vector (.collection c)) (ho : t.Owns vector offset) (index : Nat) :
    index < t.visiblePairs vector (t.nodeAt offset) offset ↔
      ∃ value, (t.elements vector)[2 * index + 1]? = some value ∧ t.EndsBy value offset ∧
        ¬ t.IsWithin (t.nodeAt offset) value := by
  obtain ⟨rest, hsplit, hrest⟩ := ht.exists_elements_eq hk offset
  have hcount : index < (t.leftBehind vector offset).length / 2 ↔
      2 * index + 1 < (t.leftBehind vector offset).length := by omega
  have hmem : ∀ {i e}, (t.elements vector)[i]? = some e → t.container? e = some vector :=
    fun h => (ht.sound.mem_elements_iff hk rfl).1 (List.mem_of_getElem? h)
  rw [ht.visiblePairs_nodeAt hk ho, hcount]
  constructor
  · intro hlt
    have hvalue : (t.elements vector)[2 * index + 1]? =
        some (t.leftBehind vector offset)[2 * index + 1] := by
      rw [hsplit, List.getElem?_append_left hlt, List.getElem?_eq_getElem hlt]
    have hbehind := (List.mem_filter.1 (List.getElem_mem hlt)).2
    simp only [decide_eq_true_eq] at hbehind
    have hnot := mt (ht.owns_iff_isWithin (hmem hvalue) hbehind.1).2 hbehind.2
    exact ⟨_, hvalue, hbehind.1, hnot⟩
  · intro ⟨value, hvalue, hend, hnot⟩
    apply Nat.lt_of_not_le
    intro hle
    have howns : t.Owns value offset := by
      apply hrest value _ hend
      rw [hsplit, List.getElem?_append_right hle] at hvalue
      exact List.mem_of_getElem? hvalue
    exact hnot ((ht.owns_iff_isWithin (hmem hvalue) hend).1 howns)

/-- The pairs that are counted are the pairs in scope, wherever the cursor stands. -/
theorem lt_visiblePairs_iff (ht : t.OfText length) {c : Collection}
    (hk : t.HasKind vector (.collection c)) {index pattern : Nat}
    (hpattern : (t.elements vector)[2 * index]? = some pattern) :
    index < t.visiblePairs vector (t.nodeAt offset) offset ↔
      t.PairInScope vector (t.nodeAt offset) offset index := by
  unfold PairInScope
  split
  · next hwithin =>
    exact ht.lt_visiblePairs_iff_of_owns hk ((ht.isWithin_nodeAt_iff hk).1 hwithin) index
  · next hwithin =>
    have hlength : 2 * index < (t.elements vector).length := by
      obtain ⟨hlt, -⟩ := List.getElem?_eq_some_iff.1 hpattern
      exact hlt
    by_cases hend : t.EndsBy vector offset
    · rw [visiblePairs_of_isBehind ⟨hwithin, hend⟩]
      simp only [hend, iff_true]
      omega
    · simp [visiblePairs, hwithin, hend]

theorem mem_pairBindings_iff (ht : t.OfText length) {c : Collection}
    (hk : t.HasKind vector (.collection c)) {form : String} {s : VisibleName} :
    s ∈ t.pairBindings vector (t.nodeAt offset) offset form ↔
      s.binding = .letBinding ∧ s.form = form ∧
        t.BoundByPair vector (t.nodeAt offset) offset s := by
  rw [pairBindings, mem_namesBoundBy_iff]
  constructor
  · rintro ⟨⟨pattern, hpattern, hsymbol⟩, htext, hrest, hbinding, hform⟩
    obtain ⟨index, hlt, hget⟩ := mem_take_evenPlaced_iff.1 hpattern
    obtain ⟨hkind, hwithin⟩ := ht.sound.mem_symbolsIn_iff.1 hsymbol
    have hscope := (ht.lt_visiblePairs_iff hk hget).1 hlt
    exact ⟨hbinding, hform, hkind, htext, hrest, index, pattern, hget, hwithin, hscope⟩
  · rintro ⟨hbinding, hform, hkind, htext, hrest, index, pattern, hget, hwithin, hscope⟩
    have hlt := (ht.lt_visiblePairs_iff hk hget).2 hscope
    have hpattern := mem_take_evenPlaced_iff.2 ⟨index, hlt, hget⟩
    exact ⟨⟨pattern, hpattern, ht.sound.mem_symbolsIn_iff.2 ⟨hkind, hwithin⟩⟩, htext, hrest,
      hbinding, hform⟩

end OfText

theorem map_filterMap_sublist {α β : Type} {f : α → Option β} {g : β → α}
    (h : ∀ a b, f a = some b → g b = a) (l : List α) : ((l.filterMap f).map g).Sublist l := by
  induction l with
  | nil => exact .slnil
  | cons a l ih =>
    cases hf : f a with
    | none =>
      rw [List.filterMap_cons_none hf]
      exact ih.cons a
    | some b =>
      rw [List.filterMap_cons_some hf, List.map_cons, h a b hf]
      exact ih.cons_cons a

theorem map_node_namesBoundBy_sublist (patterns : List Nat) (binding : Binding) (form : String) :
    ((t.namesBoundBy patterns binding form).map (·.node)).Sublist
      (patterns.flatMap t.symbolsIn) := by
  apply map_filterMap_sublist
  intro symbol s hs
  split at hs
  · split at hs
    · cases hs
    · rw [← Option.some.inj hs]
  · cases hs

namespace Preordered

/-- What stands in an element comes before what stands in a later one. -/
theorem lt_of_elements (ht : t.Preordered) (hsound : t.Sound) {a b p x y : Nat}
    (ha : t.container? a = some p) (hb : t.container? b = some p) (hab : a < b)
    (hx : t.IsWithin x a) (hy : t.IsWithin y b) : x < y := by
  obtain ⟨form, rfl, -, hparent, hform⟩ := hsound.container?_eq_some_iff.1 ha
  obtain ⟨form', rfl, -, -, hform'⟩ := hsound.container?_eq_some_iff.1 hb
  have hup : t.IsWithin x form := hx.trans (.inr ((mem_ancestors_iff hparent).2 (.inl rfl)))
  have hlt : x < form' := ht.lt_sibling hform hform' (by omega) hup
  have hle : form' + 1 ≤ y := by
    rcases hy with rfl | hy
    · exact Nat.le_refl _
    · exact Nat.le_of_lt (lt_of_mem_ancestors hy)
  omega

/-- The names that elements of a collection bind come in source order. -/
theorem pairwise_namesBoundBy (ht : t.Preordered) (hsound : t.Sound) {p : Nat}
    {patterns : List Nat} (hpatterns : ∀ e ∈ patterns, t.container? e = some p)
    (hsorted : patterns.Pairwise (· < ·)) (binding : Binding) (form : String) :
    (t.namesBoundBy patterns binding form).Pairwise fun a b => a.node < b.node := by
  have hsymbols : (patterns.flatMap t.symbolsIn).Pairwise (· < ·) := by
    apply List.pairwise_flatMap.2
    constructor
    · intro e _
      exact ht.pairwise_symbolsIn hsound.toLinked e
    · apply hsorted.imp_of_mem
      intro a b ha hb hab x hx y hy
      exact ht.lt_of_elements hsound (hpatterns a ha) (hpatterns b hb) hab
        (hsound.mem_symbolsIn_iff.1 hx).2 (hsound.mem_symbolsIn_iff.1 hy).2
  exact List.pairwise_map.1 (hsymbols.sublist (map_node_namesBoundBy_sublist patterns binding form))

end Preordered

end SourceTree

theorem ofData_preordered {forms : List Datum} {t : SourceTree}
    (h : SourceTree.ofData forms = .ok t) : t.Preordered :=
  ofEvents_preordered h

/-- The names that a binding vector brings into scope at the cursor: in source order, those in the
patterns of the pairs in scope, and no others. -/
theorem read_pairBindings {source : String} {forms : List Datum} (h : read source = .ok forms)
    (offset : Nat) :
    ∃ t, SourceTree.ofData forms = .ok t ∧ ∀ list vector form,
      t.vectorAfterHead? list = some vector →
      (t.pairBindings vector (t.nodeAt offset) offset form).Pairwise (fun a b => a.node < b.node) ∧
      ∀ s, s ∈ t.pairBindings vector (t.nodeAt offset) offset form ↔
        s.binding = .letBinding ∧ s.form = form ∧
          t.BoundByPair vector (t.nodeAt offset) offset s := by
  obtain ⟨t, htree, ht⟩ := read_ofText h
  refine ⟨t, htree, ?_⟩
  intro list vector form hvector
  have hk : t.HasKind vector (.collection .vector) := by simpa using List.find?_some hvector
  have hsub : ((SourceTree.evenPlaced (t.elements vector)).take
      (t.visiblePairs vector (t.nodeAt offset) offset)).Sublist (t.elements vector) :=
    (List.take_sublist _ _).trans (SourceTree.evenPlaced_sublist _)
  constructor
  · apply (ofData_preordered htree).pairwise_namesBoundBy ht.sound
    · intro e he
      exact (ht.sound.mem_elements_iff hk rfl).1 (hsub.subset he)
    · exact (ht.sound.pairwise_elements hk rfl).sublist hsub
  · intro s
    exact ht.mem_pairBindings_iff hk

/-- A cursor in the unfinished value of the second pair: the names of the first are in scope. -/
theorem read_pairBindings_unfinished :
    ∃ forms t, read "(let [[a & b] (f) c (g" = .ok forms ∧ SourceTree.ofData forms = .ok t ∧
      t.vectorAfterHead? 2 = some 6 ∧
      t.BoundByPair 6 (t.nodeAt 22) 22 ⟨"b", .letBinding, "let", 14⟩ ∧
      (t.pairBindings 6 (t.nodeAt 22) 22 "let").Pairwise (fun a b => a.node < b.node) ∧
      ∀ s, s ∈ t.pairBindings 6 (t.nodeAt 22) 22 "let" ↔
        s.binding = .letBinding ∧ s.form = "let" ∧ t.BoundByPair 6 (t.nodeAt 22) 22 s := by
  have hread : read "(let [[a & b] (f) c (g" = .ok [.group .list ⟨0, 22⟩ false [
      .token .symbol ⟨1, 4⟩ "let", .group .vector ⟨5, 22⟩ false [
        .group .vector ⟨6, 13⟩ true [.token .symbol ⟨7, 8⟩ "a", .token .symbol ⟨9, 10⟩ "&",
          .token .symbol ⟨11, 12⟩ "b"],
        .group .list ⟨14, 17⟩ true [.token .symbol ⟨15, 16⟩ "f"], .token .symbol ⟨18, 19⟩ "c",
        .group .list ⟨20, 22⟩ false [.token .symbol ⟨21, 22⟩ "g"]]]] := rfl
  obtain ⟨t, htree, hbindings⟩ := read_pairBindings hread 22
  have hvector : t.vectorAfterHead? 2 = some 6 := by
    obtain rfl := Except.ok.inj htree
    decide +kernel
  have hmem : ⟨"b", .letBinding, "let", 14⟩ ∈ t.pairBindings 6 (t.nodeAt 22) 22 "let" := by
    obtain rfl := Except.ok.inj htree
    decide +kernel
  obtain ⟨hsorted, hiff⟩ := hbindings 2 6 "let" hvector
  exact ⟨_, t, hread, htree, hvector, ((hiff _).1 hmem).2.2, hsorted, hiff⟩

end PhelAssist
