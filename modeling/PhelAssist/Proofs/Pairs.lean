import PhelAssist.Scope.Visible
import PhelAssist.Proofs.Enclosure
import PhelAssist.Proofs.Preorder

namespace PhelAssist.SourceTree

variable {t : SourceTree} {offset : Nat}

/-- The child toward a node is the one node on the way up that hangs below the container. -/
theorem childToward?_eq_some_iff {container id c : Nat} :
    t.childToward? container id = some c ↔
      t.parent? c = some container ∧ (c = id ∨ c ∈ t.ancestors id) := by
  induction id using Nat.strongRecOn with
  | _ id ih =>
    rw [childToward?]
    split
    · next hnone =>
      rw [ancestors_eq_nil hnone]
      simp only [List.not_mem_nil, or_false, reduceCtorEq, false_iff, not_and]
      rintro hc rfl
      simp [hnone] at hc
    · next p hp =>
      rw [ancestors_eq_cons hp]
      split
      · next heq =>
        subst heq
        simp only [Option.some.injEq, List.mem_cons]
        constructor
        · rintro rfl
          exact ⟨hp, .inl rfl⟩
        · rintro ⟨hc, rfl | rfl | hmem⟩
          · rfl
          · exact absurd (parent?_lt hc) (Nat.lt_irrefl _)
          · exact absurd (parent?_lt hc) (Nat.lt_asymm (lt_of_mem_ancestors hmem))
      · next hne =>
        rw [ih p (parent?_lt hp), List.mem_cons]
        constructor
        · rintro ⟨hc, hmem⟩
          exact ⟨hc, .inr hmem⟩
        · rintro ⟨hc, rfl | hmem⟩
          · exact absurd (Option.some.inj (hp.symm.trans hc)) hne
          · exact ⟨hc, hmem⟩

theorem exists_childToward? {container id : Nat} (h : container ∈ t.ancestors id) :
    ∃ c, t.childToward? container id = some c := by
  induction id using Nat.strongRecOn with
  | _ id ih =>
    cases hp : t.parent? id with
    | none => simp [ancestors_eq_nil hp] at h
    | some p =>
      rw [ancestors_eq_cons hp] at h
      rcases List.mem_cons.1 h with rfl | h
      · exact ⟨id, childToward?_eq_some_iff.2 ⟨hp, .inl rfl⟩⟩
      · obtain ⟨c, hc⟩ := ih p (parent?_lt hp) h
        obtain ⟨hparent, hmem⟩ := childToward?_eq_some_iff.1 hc
        refine ⟨c, childToward?_eq_some_iff.2 ⟨hparent, .inr ?_⟩⟩
        rw [ancestors_eq_cons hp]
        exact List.mem_cons.2 hmem

namespace Sound

/-- What is below a collection is in one of its elements, unless it is the form around one. -/
theorem exists_element_around (ht : t.Sound) {v x : Nat} {c : Collection}
    (hk : t.HasKind v (.collection c)) (hmem : v ∈ t.ancestors x) (hx : ¬ t.HasKind x .form) :
    ∃ e, t.container? e = some v ∧ t.IsWithin x e := by
  obtain ⟨f, hf⟩ := exists_childToward? hmem
  obtain ⟨hparent, hup⟩ := childToward?_eq_some_iff.1 hf
  have hform : t.HasKind f .form := (ht.wrapped f v hparent).2 ⟨_, hk, rfl⟩
  have hchild := ht.single f hform
  refine ⟨f + 1, ?_, ?_⟩
  · refine ht.container?_eq_some_iff.2 ⟨f, rfl, hform, ?_, hparent⟩
    exact (ht.mem_children f (f + 1)).1 (by simp [hchild])
  · rcases hup with rfl | hup
    · exact absurd hform hx
    · -- below the form there is the element alone
      obtain ⟨e, he⟩ := exists_childToward? hup
      obtain ⟨hfe, hmem⟩ := childToward?_eq_some_iff.1 he
      have hin := (ht.mem_children f e).2 hfe
      rw [hchild] at hin
      obtain rfl := List.mem_singleton.1 hin
      exact hmem.imp Eq.symm id

theorem childToward?_of_isWithin (ht : t.Sound) {v e x : Nat} (he : t.container? e = some v)
    (hx : t.IsWithin x e) :
    ∃ form, e = form + 1 ∧ t.HasKind form .form ∧ t.childToward? v x = some form := by
  obtain ⟨form, rfl, hform, hparent, hv⟩ := ht.container?_eq_some_iff.1 he
  have hup : t.IsWithin x form := hx.trans (.inr ((mem_ancestors_iff hparent).2 (.inl rfl)))
  exact ⟨form, rfl, hform, childToward?_eq_some_iff.2 ⟨hv, hup.imp Eq.symm id⟩⟩

/-- The element of a collection that a node below it belongs to. -/
theorem elementAround?_of_isWithin (ht : t.Sound) {v e x : Nat} (he : t.container? e = some v)
    (hx : t.IsWithin x e) :
    t.elementAround? v x = ((t.elements v).idxOf? e).map fun index => (index, e) := by
  obtain ⟨form, rfl, hform, hchild⟩ := ht.childToward?_of_isWithin he hx
  simp only [elementAround?, hchild, Option.bind_eq_bind, Option.bind_some,
    ht.unwrap_form hform, Option.map_eq_bind]
  rfl

/-- No two elements of a collection have a node in common. -/
theorem eq_of_isWithin (ht : t.Sound) {v e e' x : Nat} (he : t.container? e = some v)
    (he' : t.container? e' = some v) (hx : t.IsWithin x e) (hx' : t.IsWithin x e') : e = e' := by
  obtain ⟨form, rfl, -, hchild⟩ := ht.childToward?_of_isWithin he hx
  obtain ⟨form', rfl, -, hchild'⟩ := ht.childToward?_of_isWithin he' hx'
  rw [Option.some.inj (hchild.symm.trans hchild')]

end Sound

namespace OfText

variable {length : Nat}

theorem owns_of_isWithin (ht : t.OfText length) {e : Nat} {f : Face} (hf : t.face? e = some f)
    (he : f.IsElement) (h : t.IsWithin (t.nodeAt offset) e) : t.Owns e offset := by
  apply ht.sound.owns_of_isWithin_nodeAt h
  · intro hroot
    subst hroot
    exact he.1 (HasKind.unique (kind?_of_face? hf) ht.sound.file)
  · intro hform
    exact he.2 (HasKind.unique (kind?_of_face? hf) hform)

/-- In a collection around the cursor the innermost node is found in the element that owns the
cursor, unless no element does. -/
theorem elementAround?_nodeAt (ht : t.OfText length) {v : Nat} {c : Collection}
    (hk : t.HasKind v (.collection c)) (ho : t.Owns v offset) :
    t.nodeAt offset = v ∧ t.elementAround? v (t.nodeAt offset) = none ∨
      ∃ e, t.container? e = some v ∧ t.IsWithin (t.nodeAt offset) e ∧
        t.elementAround? v (t.nodeAt offset) =
          ((t.elements v).idxOf? e).map fun index => (index, e) := by
  rcases (ht.isWithin_nodeAt_iff hk).2 ho with heq | hmem
  · refine .inl ⟨heq, ?_⟩
    have hnone : t.childToward? v v = none := by
      refine Option.eq_none_iff_forall_ne_some.2 fun x hx => ?_
      obtain ⟨hx, rfl | hmem⟩ := childToward?_eq_some_iff.1 hx
      · exact Nat.lt_irrefl _ (parent?_lt hx)
      · exact Nat.lt_asymm (parent?_lt hx) (lt_of_mem_ancestors hmem)
    simp [elementAround?, heq, hnone]
  · obtain ⟨e, he, hwithin⟩ :=
      ht.sound.exists_element_around hk hmem (ht.sound.not_form_nodeAt offset)
    exact .inr ⟨e, he, hwithin, ht.sound.elementAround?_of_isWithin he hwithin⟩

theorem before_sibling (ht : t.OfText length) {a b p : Nat} (ha : t.container? a = some p)
    (hb : t.container? b = some p) (hab : a < b) {f g : Face} (hf : t.face? a = some f)
    (hg : t.face? b = some g) : f.closed = true ∧ f.span.stop ≤ g.span.start := by
  obtain ⟨f', hf', hfe⟩ := ht.element_of_container ha
  obtain ⟨g', hg', hge⟩ := ht.element_of_container hb
  obtain rfl := Option.some.inj (hf.symm.trans hf')
  obtain rfl := Option.some.inj (hg.symm.trans hg')
  rcases ht.spaced.apart a b f g hab hf hg hfe hge with h | ⟨-, h⟩
  · exact absurd h (ht.sound.not_above_sibling ha hb)
  · exact h

/-- A closed node that ends before the cursor does not own it, and neither does one that ends at
the cursor unless it is a word. -/
theorem not_owns_of_closed (ht : t.OfText length) {e : Nat} {f : Face} (hf : t.face? e = some f)
    (hclosed : f.closed = true) (hle : f.span.stop ≤ offset)
    (hword : f.span.stop = offset → ¬ ∃ k, f.kind = .token k) : ¬ t.Owns e offset := by
  intro ho
  obtain ⟨f', hf', he⟩ := element_of_owns ho
  obtain rfl := Option.some.inj (hf.symm.trans hf')
  rcases ht.element_kind hf he with ⟨k, hk⟩ | ⟨c, hk⟩
  · have := ((owns_iff_of_token hf hk).1 ho).2
    exact hword (by omega) ⟨k, hk⟩
  · have := ((owns_iff_of_collection hf hk).1 ho).2
    simp only [hclosed, reduceCtorEq, false_and, or_false] at this
    omega

end OfText

/-- The elements that a cursor in a collection has left behind: they have ended, and no word among
them is still typed. -/
def leftBehind (t : SourceTree) (id offset : Nat) : List Nat :=
  (t.elements id).filter fun e => t.EndsBy e offset ∧ ¬ t.Owns e offset

theorem endsBy_iff {e : Nat} {f : Face} (hf : t.face? e = some f) :
    t.EndsBy e offset ↔ f.span.stop ≤ offset := by
  simp [EndsBy, span?_of_face? hf]

theorem eq_filter_append_filter {α : Type} {p : α → Bool} {l : List α}
    (h : l.Pairwise fun a b => p b = true → p a = true) :
    l = l.filter p ++ l.filter fun a => !p a := by
  induction l with
  | nil => rfl
  | cons a l ih =>
    obtain ⟨ha, hl⟩ := List.pairwise_cons.1 h
    by_cases hp : p a = true
    · simpa [hp] using ih hl
    · have hnone : ∀ b ∈ l, p b = false := fun b hb => by
        simpa using mt (ha b hb) hp
      rw [List.filter_eq_nil_iff.2, List.filter_eq_self.2, List.nil_append]
      · simpa [hp] using hnone
      · simpa [hp] using hnone

namespace OfText

variable {length : Nat}

/-- What a cursor has left behind are the first elements of a collection. -/
theorem exists_elements_eq (ht : t.OfText length) {v : Nat} {c : Collection}
    (hk : t.HasKind v (.collection c)) (offset : Nat) :
    ∃ rest, t.elements v = t.leftBehind v offset ++ rest ∧
      ∀ e ∈ rest, t.EndsBy e offset → t.Owns e offset := by
  refine ⟨_, eq_filter_append_filter ?_, fun e he hend => by
    simpa [hend] using (List.mem_filter.1 he).2⟩
  have hsorted := ht.sound.pairwise_elements hk rfl
  refine hsorted.imp_of_mem fun {a b} ha hb hab hpass => ?_
  rw [ht.sound.mem_elements_iff hk rfl] at ha hb
  obtain ⟨f, hf, hfe⟩ := ht.element_of_container ha
  obtain ⟨g, hg, hge⟩ := ht.element_of_container hb
  obtain ⟨hclosed, hstop⟩ := ht.before_sibling ha hb hab hf hg
  have hspan := (ht.spaced.ended b g hg hge List.not_mem_nil).1
  simp only [decide_eq_true_eq] at hpass ⊢
  have hend := (endsBy_iff hg).1 hpass.1
  exact ⟨(endsBy_iff hf).2 (by omega), ht.not_owns_of_closed hf hclosed (by omega) (by omega)⟩

theorem not_owns_of_nodeAt (ht : t.OfText length) {v e : Nat} {c : Collection}
    (hk : t.HasKind v (.collection c)) (hv : t.nodeAt offset = v) (he : t.container? e = some v) :
    ¬ t.Owns e offset := by
  intro ho
  obtain ⟨f, hf, hfe⟩ := ht.element_of_container he
  rcases ht.element_kind hf hfe with ⟨k, hfk⟩ | ⟨d, hfk⟩
  · have hek : t.HasKind e (.token k) := by rw [HasKind, kind?_of_face? hf, hfk]
    obtain ⟨k', hk', -⟩ := ht.nodeAt_of_token hek ho
    rw [hv] at hk'
    cases hk.unique hk'
  · have hek : t.HasKind e (.collection d) := by rw [HasKind, kind?_of_face? hf, hfk]
    have hlt := container?_lt he
    rcases (ht.isWithin_nodeAt_iff hek).2 ho with heq | hmem
    · omega
    · rw [hv] at hmem
      have := lt_of_mem_ancestors hmem
      omega

theorem leftBehind_of_before (ht : t.OfText length) {v a e : Nat} (ha : t.container? a = some v)
    (he : t.container? e = some v) (hae : a < e) (hwithin : t.IsWithin (t.nodeAt offset) e) :
    t.EndsBy a offset ∧ ¬ t.Owns a offset := by
  obtain ⟨f, hf, hfe⟩ := ht.element_of_container ha
  obtain ⟨g, hg, hge⟩ := ht.element_of_container he
  obtain ⟨hclosed, hstop⟩ := ht.before_sibling ha he hae hf hg
  have hstart := (ht.bounds_of_owns hg hge (ht.owns_of_isWithin hg hge hwithin)).1
  have hle : f.span.stop ≤ offset := by omega
  refine ⟨(endsBy_iff hf).2 hle, ht.not_owns_of_closed hf hclosed hle ?_⟩
  -- a word that ends at the cursor would be the innermost node
  rintro heq ⟨k, hfk⟩
  have hspan := (ht.spaced.ended a f hf hfe List.not_mem_nil).1
  have hnode : t.nodeAt offset = a :=
    ht.nodeAt_eq_of_token (by rw [HasKind, kind?_of_face? hf, hfk]) (span?_of_face? hf)
      (by omega) (by omega)
  rcases hwithin with h | h
  · omega
  · have := lt_of_mem_ancestors h
    omega

end OfText

theorem completePairs_append {l₁ l₂ : List Nat} (h₁ : ∀ e ∈ l₁, t.EndsBy e offset)
    (h₂ : ∀ e ∈ l₂, ¬ t.EndsBy e offset) :
    t.completePairs offset (l₁ ++ l₂) = l₁.length / 2 := by
  induction l₁ using evenPlaced.induct with
  | case1 pattern value rest ih =>
    have hvalue := h₁ value (by simp)
    have hrest := ih fun e he => h₁ e (by simp [he])
    simp only [List.cons_append, completePairs, hvalue, if_true, hrest, List.length_cons]
    omega
  | case2 pattern =>
    cases l₂ with
    | nil => simp [completePairs]
    | cons value rest => simp [completePairs, h₂ value]
  | case3 =>
    match l₂ with
    | [] | [_] => rfl
    | _ :: value :: rest => simp [completePairs, h₂ value]

theorem evenPlaced_sublist {α : Type} (l : List α) : (evenPlaced l).Sublist l := by
  induction l using evenPlaced.induct with
  | case1 pattern value rest ih => exact (ih.cons value).cons_cons pattern
  | case2 pattern => exact .refl _
  | case3 => exact .slnil

theorem length_evenPlaced {α : Type} (l : List α) :
    (evenPlaced l).length = (l.length + 1) / 2 := by
  induction l using evenPlaced.induct with
  | case1 pattern value rest ih =>
    simp only [evenPlaced, List.length_cons, ih]
    omega
  | case2 pattern => simp [evenPlaced]
  | case3 => simp [evenPlaced]

theorem take_evenPlaced_append {α : Type} (l₁ l₂ : List α) :
    (evenPlaced (l₁ ++ l₂)).take (l₁.length / 2) = (evenPlaced l₁).take (l₁.length / 2) := by
  induction l₁ using evenPlaced.induct with
  | case1 pattern value rest ih =>
    have hlength : (pattern :: value :: rest).length / 2 = rest.length / 2 + 1 := by
      simp only [List.length_cons]
      omega
    simp only [hlength, List.cons_append, evenPlaced, List.take_succ_cons, ih]
  | case2 pattern => simp
  | case3 => simp

namespace OfText

variable {length : Nat}

/-- Inside a binding vector the pairs in scope are those that the cursor has left behind. -/
theorem visiblePairs_nodeAt (ht : t.OfText length) {v : Nat} {c : Collection}
    (hk : t.HasKind v (.collection c)) (ho : t.Owns v offset) :
    t.visiblePairs v (t.nodeAt offset) offset = (t.leftBehind v offset).length / 2 := by
  obtain ⟨rest, hsplit, hrest⟩ := ht.exists_elements_eq hk offset
  have hbehind : ∀ e ∈ t.leftBehind v offset, t.EndsBy e offset ∧ ¬ t.Owns e offset := by
    simp [leftBehind]
  have hmem : ∀ e, e ∈ t.elements v ↔ t.container? e = some v :=
    fun e => ht.sound.mem_elements_iff hk rfl
  simp only [visiblePairs, (ht.isWithin_nodeAt_iff hk).2 ho, if_true]
  rcases ht.elementAround?_nodeAt hk ho with ⟨hv, hnone⟩ | ⟨e, he, hwithin, hsome⟩
  · rw [hnone]
    have hnever : ∀ e ∈ rest, ¬ t.EndsBy e offset := fun e he hend =>
      ht.not_owns_of_nodeAt hk hv ((hmem e).1 (by simp [hsplit, he])) (hrest e he hend)
    simpa only [← hsplit] using completePairs_append (fun e he => (hbehind e he).1) hnever
  · -- the element around the cursor comes right behind what is left behind
    obtain ⟨f, hf, hfe⟩ := ht.element_of_container he
    have howns := ht.owns_of_isWithin hf hfe hwithin
    have hnot : e ∉ t.leftBehind v offset := fun h => (hbehind e h).2 howns
    have hsorted := ht.sound.pairwise_elements hk rfl
    have hein := (hmem e).2 he
    rw [hsplit] at hein hsorted
    have hindex : (t.elements v).idxOf? e = some (t.leftBehind v offset).length := by
      rw [hsplit]
      cases rest with
      | nil => simp [hnot] at hein
      | cons r rs =>
        obtain rfl : r = e := by
          rcases List.mem_cons.1 ((List.mem_append.1 hein).resolve_left hnot) with h | h
          · exact h.symm
          · have hlt := (List.pairwise_cons.1 (List.pairwise_append.1 hsorted).2.1).1 e h
            have hr := (hmem r).1 (by simp [hsplit])
            have hpass := ht.leftBehind_of_before hr he hlt hwithin
            exact absurd (hrest r List.mem_cons_self hpass.1) hpass.2
        rw [List.idxOf?, List.findIdx?_append, List.findIdx?_eq_none_iff.2]
        · simp [List.findIdx?_cons]
        · intro x hx
          simpa using fun h : x = r => hnot (h ▸ hx)
    simp [hsome, hindex]

theorem pairBindings_nodeAt (ht : t.OfText length) {v : Nat} {c : Collection}
    (hk : t.HasKind v (.collection c)) (ho : t.Owns v offset) (form : String) :
    t.pairBindings v (t.nodeAt offset) offset form =
      t.namesBoundBy ((evenPlaced (t.leftBehind v offset)).take
        ((t.leftBehind v offset).length / 2)) .letBinding form := by
  obtain ⟨rest, hsplit, -⟩ := ht.exists_elements_eq hk offset
  rw [pairBindings, ht.visiblePairs_nodeAt hk ho, hsplit, take_evenPlaced_append]

end OfText
end PhelAssist.SourceTree
