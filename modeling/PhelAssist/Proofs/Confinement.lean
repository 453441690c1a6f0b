import PhelAssist.Proofs.Agreement
import PhelAssist.Proofs.PairScope

namespace PhelAssist

namespace SourceTree

variable {t : SourceTree} {list vector pattern offset length : Nat} {binding : Binding}

/-- The vector of a list in which its parameters or its bindings stand. -/
inductive BindingVector (t : SourceTree) (list : Nat) : Binding → Nat → Prop
  | parameters {vector : Nat} (hparams : t.parameters? list = some vector) :
      BindingVector t list .parameter vector
  | bindings {vector : Nat} (hvector : t.vectorAfterHead? list = some vector)
      (hoperator : t.OperatorIn list (Words.letLike ++ Words.loopLike)) :
      BindingVector t list .letBinding vector

/-- A name that a cursor on `element` may see. A local name stands in a binding vector of a list
around the cursor, and has ended; any other is the name in a top-level definition that starts before
the cursor. No name is the node that the cursor is on. -/
structure Confined (t : SourceTree) (element offset : Nat) (s : VisibleName) : Prop where
  symbol : t.HasKind s.node (.token .symbol)
  other : s.node ≠ element
  bound : s.binding.isLocal = true → t.EndsBy s.node offset ∧
    ∃ list vector, t.IsWithin element list ∧ t.HasKind list (.collection .list) ∧
      t.BindingVector list s.binding vector ∧ t.IsWithin s.node vector
  defined : s.binding.isLocal = false →
    ∃ form span, form ∈ t.elements root ∧ t.HasKind form (.collection .list) ∧
      (t.elements form)[1]? = some s.node ∧ t.span? form = some span ∧ span.start < offset

theorem Introduces.bindingVector {element scope : Nat}
    (h : t.Introduces element offset scope binding vector pattern) :
    t.BindingVector scope binding vector := by
  cases h with
  | parameters hparams _ => exact .parameters hparams
  | pair _ hvector hoperator _ _ =>
    exact .bindings hvector (hoperator.mono (List.subset_append_left _ _))
  | loop _ hvector hoperator _ _ _ =>
    exact .bindings hvector (hoperator.mono (List.subset_append_right _ _))

theorem Sound.lt_of_index_lt (ht : t.Sound) {v i j a b : Nat} {c : Collection}
    (hk : t.HasKind v (.collection c)) (ha : (t.elements v)[i]? = some a)
    (hb : (t.elements v)[j]? = some b) (hij : i < j) : a < b := by
  obtain ⟨hi, rfl⟩ := List.getElem?_eq_some_iff.1 ha
  obtain ⟨hj, rfl⟩ := List.getElem?_eq_some_iff.1 hb
  exact List.pairwise_iff_getElem.1 (ht.pairwise_elements hk rfl) i j hi hj hij

namespace OfText

theorem endsBy_of_isWithin (ht : t.OfText length) {x e : Nat} {f g : Face}
    (hx : t.face? x = some f) (hxe : f.IsElement) (he : t.face? e = some g) (hee : g.IsElement)
    (h : t.IsWithin x e) (hend : t.EndsBy e offset) : t.EndsBy x offset := by
  rcases h with rfl | h
  · exact hend
  · have hstop := (endsBy_iff he).1 hend
    have hin := ((ht.spaced.inside e x g f h he hx hee hxe).2 List.not_mem_nil).1
    exact (endsBy_iff hx).2 (Nat.le_trans hin hstop)

/-- What stands in an element that is behind the cursor is behind the cursor too. -/
theorem isBehind_of_isWithin (ht : t.OfText length) {element x e : Nat} {f g : Face}
    (hx : t.face? x = some f) (hxe : f.IsElement) (he : t.face? e = some g) (hee : g.IsElement)
    (h : t.IsWithin x e) (hbehind : t.IsBehind e element offset) : t.IsBehind x element offset := by
  obtain ⟨hout, hend⟩ := hbehind
  exact ⟨fun hin => hout (hin.trans h), ht.endsBy_of_isWithin hx hxe he hee h hend⟩

/-- The pattern of a pair in scope is behind the cursor: inside the vector because it comes before
its value, and that has ended. -/
theorem isBehind_of_pairInScope (ht : t.OfText length)
    (hk : t.HasKind vector (.collection .vector)) {index : Nat}
    (hpattern : (t.elements vector)[2 * index]? = some pattern)
    (h : t.PairInScope vector (t.nodeAt offset) offset index) :
    t.IsBehind pattern (t.nodeAt offset) offset := by
  have hmem : ∀ {i e}, (t.elements vector)[i]? = some e → t.container? e = some vector :=
    fun he => (ht.sound.mem_elements_iff hk rfl).1 (List.mem_of_getElem? he)
  obtain ⟨f, hf, hfe⟩ := ht.element_of_container (hmem hpattern)
  unfold PairInScope at h
  split at h
  · obtain ⟨value, hvalue, hend, -⟩ := h
    obtain ⟨g, hg, hge⟩ := ht.element_of_container (hmem hvalue)
    have hlt := ht.sound.lt_of_index_lt hk hpattern hvalue (Nat.lt_succ_self _)
    have hapart := (ht.before_sibling (hmem hpattern) (hmem hvalue) hlt hf hg).2
    have hspan := (ht.spaced.ended value g hg hge List.not_mem_nil).1
    have hstop := (endsBy_iff hg).1 hend
    refine ⟨?_, (endsBy_iff hf).2 (by omega)⟩
    intro hin
    have hbounds := ht.bounds_of_owns hf hfe (ht.owns_of_isWithin hf hfe hin)
    omega
  · next hout =>
    obtain ⟨g, hg, hge⟩ := exists_element hk (by simp) (by simp)
    have hwithin := isWithin_of_container? (hmem hpattern)
    exact ht.isBehind_of_isWithin hf hfe hg hge hwithin ⟨hout, h⟩

/-- A list brings only patterns into scope that are behind the cursor. -/
theorem isBehind_of_introduces (ht : t.OfText length)
    (h : t.Introduces (t.nodeAt offset) offset list binding vector pattern) :
    t.IsBehind pattern (t.nodeAt offset) offset := by
  have hk := h.mem_elements.2
  obtain ⟨g, hg, hge⟩ := exists_element hk (by simp) (by simp)
  cases h with
  | parameters _ hbehind => exact hbehind
  | pair _ _ _ hpair hpattern =>
    exact ht.isBehind_of_pairInScope hk hpattern ((ht.lt_visiblePairs_iff hk hpattern).1 hpair)
  | loop _ _ _ hbehind _ hpattern =>
    have hcontainer := (ht.sound.mem_elements_iff hk rfl).1 (List.mem_of_getElem? hpattern)
    obtain ⟨f, hf, hfe⟩ := ht.element_of_container hcontainer
    exact ht.isBehind_of_isWithin hf hfe hg hge (isWithin_of_container? hcontainer) hbehind

end OfText

/-- What is visible and not local is defined at the top level of the file. -/
theorem mem_fileDefinitions_of_visibleAt {element : Nat} {names : List VisibleName}
    {s : VisibleName} (h : t.visibleAt element offset = .ok names) (hs : s ∈ names)
    (hglobal : s.binding.isLocal = false) : s ∈ t.fileDefinitions element offset := by
  rcases scope_or_file_of_visibleAt h hs with ⟨scope, -, hs⟩ | hs
  · have hlocal := isLocal_of_mem_scopeBindings hs
    rw [hglobal] at hlocal
    cases hlocal
  · exact hs

theorem exists_form_of_mem_fileDefinitions {element : Nat} {s : VisibleName}
    (h : s ∈ t.fileDefinitions element offset) :
    t.HasKind s.node (.token .symbol) ∧ s.node ≠ element ∧
      ∃ form span, form ∈ t.elements root ∧ t.HasKind form (.collection .list) ∧
        (t.elements form)[1]? = some s.node ∧ t.span? form = some span ∧ span.start < offset := by
  obtain ⟨form, hmem, ⟨span, hspan, hstart⟩, hdefines⟩ := mem_fileDefinitions_iff.1 h
  obtain ⟨hoperator, -, hsecond, hsymbol, hother, -⟩ := definition?_eq_some_iff.1 hdefines
  have hlist := isList_of_operator? hoperator
  exact ⟨hsymbol, hother, form, span, hmem, hlist, hsecond, hspan, hstart⟩

theorem OfText.confined_of_visibleAt (ht : t.OfText length) {names : List VisibleName}
    {s : VisibleName} (h : t.visibleAt (t.nodeAt offset) offset = .ok names) (hs : s ∈ names) :
    t.Confined (t.nodeAt offset) offset s := by
  cases hlocal : s.binding.isLocal with
  | true =>
    obtain ⟨list, vector, pattern, hlist, hkind, hintro, hsymbol, hwithin, -⟩ :=
      exists_introduces_of_visibleAt ht.sound.toLinked h hs hlocal
    obtain ⟨f, hf, hfe⟩ := exists_element hsymbol (by simp) (by simp)
    obtain ⟨g, hg, hge⟩ : ∃ g, t.face? pattern = some g ∧ g.IsElement := by
      rcases hintro.pattern_cases ht.sound with ⟨-, rfl⟩ | hcontainer
      · exact exists_element hintro.mem_elements.2 (by simp) (by simp)
      · exact ht.element_of_container hcontainer
    have hbehind := ht.isBehind_of_isWithin hf hfe hg hge hwithin (ht.isBehind_of_introduces hintro)
    refine ⟨hsymbol, fun heq => hbehind.1 (.inl heq.symm), fun _ => ⟨hbehind.2, ?_⟩, ?_⟩
    · exact ⟨list, vector, hlist, hkind, hintro.bindingVector, hintro.isWithin ht.sound hwithin⟩
    · intro hglobal
      rw [hlocal] at hglobal
      cases hglobal
  | false =>
    have hmem := mem_fileDefinitions_of_visibleAt h hs hlocal
    obtain ⟨hsymbol, hother, hform⟩ := exists_form_of_mem_fileDefinitions hmem
    refine ⟨hsymbol, hother, ?_, fun _ => hform⟩
    intro htrue
    rw [hlocal] at htrue
    cases htrue

end SourceTree

/-- No name leaks from outside of its scope or from after the cursor: at every cursor of a text that
can be read, names are found, and each one is confined. -/
theorem read_visibleAt_confined {source : String} {forms : List Datum}
    (h : read source = .ok forms) (offset : Nat) :
    ∃ t names, SourceTree.ofData forms = .ok t ∧
      t.visibleAt (t.nodeAt offset) offset = .ok names ∧
      ∀ s ∈ names, t.Confined (t.nodeAt offset) offset s := by
  obtain ⟨t, htree, ht⟩ := read_ofText h
  obtain ⟨names, hnames⟩ :=
    SourceTree.exists_visibleAt_of_contains (t.contains_nodeAt offset) offset
  exact ⟨t, names, htree, hnames, fun s hs => ht.confined_of_visibleAt hnames hs⟩

/-- A cursor in the unfinished value of a second pair: it sees the first pair, a parameter and a
definition of the file, and nothing of the second pair. -/
theorem read_visibleAt_confined_unfinished :
    ∃ forms t names, read "(def d 1)\n(fn [a] (let [b a c (" = .ok forms ∧
      SourceTree.ofData forms = .ok t ∧ t.visibleAt (t.nodeAt 31) 31 = .ok names ∧
      names.map (·.node) = [24, 16, 6] ∧ ∀ s ∈ names, t.Confined (t.nodeAt 31) 31 s := by
  have hread : read "(def d 1)\n(fn [a] (let [b a c (" = .ok [
      .group .list ⟨0, 9⟩ true [.token .symbol ⟨1, 4⟩ "def", .token .symbol ⟨5, 6⟩ "d",
        .token .literal ⟨7, 8⟩ "1"],
      .group .list ⟨10, 31⟩ false [.token .symbol ⟨11, 13⟩ "fn",
        .group .vector ⟨14, 17⟩ true [.token .symbol ⟨15, 16⟩ "a"],
        .group .list ⟨18, 31⟩ false [.token .symbol ⟨19, 22⟩ "let",
          .group .vector ⟨23, 31⟩ false [.token .symbol ⟨24, 25⟩ "b", .token .symbol ⟨26, 27⟩ "a",
            .token .symbol ⟨28, 29⟩ "c", .group .list ⟨30, 31⟩ false []]]]] := rfl
  obtain ⟨t, names, htree, hnames, hconfined⟩ := read_visibleAt_confined hread 31
  have hsome : (t.visibleAt (t.nodeAt 31) 31).toOption.map (·.map (·.node)) =
      some [24, 16, 6] := by
    obtain rfl := Except.ok.inj htree
    decide +kernel
  rw [hnames] at hsome
  have hnodes : names.map (·.node) = [24, 16, 6] := Option.some.inj hsome
  exact ⟨_, t, names, hread, htree, hnames, hnodes, hconfined⟩

end PhelAssist
