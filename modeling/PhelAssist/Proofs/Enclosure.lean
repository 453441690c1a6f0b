import PhelAssist.Proofs.CursorSearch
import PhelAssist.Proofs.Feeding

namespace PhelAssist

namespace SourceTree

variable {t : SourceTree} {offset : Nat}

theorem owns_iff_of_token {id : Nat} {f : Face} {k : Token} (hf : t.face? id = some f)
    (hk : f.kind = .token k) : t.Owns id offset ↔ f.span.Reaches offset := by
  obtain ⟨n, hn, rfl⟩ := Option.map_eq_some_iff.1 hf
  replace hk : n.kind = .token k := hk
  simp [Owns, hn, Node.Owns, hk, Node.face]

theorem owns_iff_of_collection {id : Nat} {f : Face} {c : Collection} (hf : t.face? id = some f)
    (hk : f.kind = .collection c) :
    t.Owns id offset ↔ f.span.start < offset ∧
      (offset < f.span.stop ∨ f.closed = false ∧ offset = f.span.stop) := by
  obtain ⟨n, hn, rfl⟩ := Option.map_eq_some_iff.1 hf
  replace hk : n.kind = .collection c := hk
  simp only [Owns, hn, Option.mem_def, Option.some.injEq, exists_eq_left', Node.Owns, hk, Node.face,
    Span.Surrounds]
  constructor
  · rintro (⟨h₁, h₂⟩ | ⟨hc, h₁, h₂⟩)
    · exact ⟨h₁, .inl h₂⟩
    · exact ⟨h₁, .inr ⟨hc, h₂⟩⟩
  · rintro ⟨h₁, h₂ | ⟨hc, h₂⟩⟩
    · exact .inl ⟨h₁, h₂⟩
    · exact .inr ⟨hc, h₁, h₂⟩

theorem exists_element {id : Nat} {k : NodeKind} (hk : t.HasKind id k) (hfile : k ≠ .file)
    (hform : k ≠ .form) : ∃ f, t.face? id = some f ∧ f.IsElement := by
  obtain ⟨f, hf, rfl⟩ := face?_of_kind? hk
  exact ⟨f, hf, hfile, hform⟩

theorem owns_congr {t' : SourceTree} {id : Nat} (h : t'.face? id = t.face? id) :
    t'.Owns id offset ↔ t.Owns id offset := by
  simp only [face?] at h
  cases hn : t.node? id with
  | none => simp_all [Owns]
  | some n =>
    rw [hn] at h
    obtain ⟨n', hn', hface⟩ := Option.map_eq_some_iff.1 h
    obtain ⟨hkind, hspan, hclosed⟩ := Face.mk.inj hface
    simp [Owns, hn, hn', Node.Owns, hkind, hspan, hclosed]

namespace OfText

variable {length : Nat}

theorem element_kind (ht : t.OfText length) {id : Nat} {f : Face} (hf : t.face? id = some f)
    (he : f.IsElement) : (∃ k, f.kind = .token k) ∨ ∃ c, f.kind = .collection c := by
  have herror := (ht.spaced.plain id f hf).1
  obtain ⟨hfile, hform⟩ := he
  cases hk : f.kind with
  | token k => exact .inl ⟨k, rfl⟩
  | collection c => exact .inr ⟨c, rfl⟩
  | file => exact absurd hk hfile
  | form => exact absurd hk hform
  | error => exact absurd hk herror

theorem exists_container (ht : t.OfText length) {id : Nat} {f : Face}
    (hf : t.face? id = some f) (he : f.IsElement) :
    ∃ p, t.container? id = some p ∧ (p = root ∨ ∃ c, t.HasKind p (.collection c)) := by
  have hsound := ht.sound
  have hnot_root : ∀ {i k}, t.HasKind i k → k ≠ .file → 0 < i := by
    rintro i k hi hk
    refine Nat.pos_of_ne_zero ?_
    rintro rfl
    exact hk (hi.unique hsound.file)
  have hid : t.HasKind id f.kind := kind?_of_face? hf
  obtain ⟨q, hq⟩ := hsound.parented id (hnot_root hid he.1) (lt_size_of_face? hf)
  have hqsize := Nat.lt_trans (parent?_lt hq) (lt_size_of_face? hf)
  obtain ⟨n, hn⟩ := exists_node hqsize
  have hqf : t.face? q = some n.face := by simp [face?, hn]
  have hqk := kind?_of_face? hqf
  have hword := hsound.inner id q hq _ hqk
  have hwraps : ¬ n.face.kind.holdsForms = true := by
    intro h
    have hform := (hsound.wrapped id q hq).2 ⟨_, hqk, h⟩
    exact he.2 (hid.unique hform)
  -- only a form is left
  have hqform : t.HasKind q .form := by
    rw [HasKind, hqk]
    cases hk : n.face.kind with
    | file => simp [hk, NodeKind.holdsForms] at hwraps
    | collection c => simp [hk, NodeKind.holdsForms] at hwraps
    | form => rfl
    | token k => simp [hk, NodeKind.isWord] at hword
    | error => exact absurd hk (ht.spaced.plain q _ hqf).1
  obtain ⟨p, hp⟩ := hsound.parented q (hnot_root hqform (by simp)) hqsize
  refine ⟨p, by simp [container?, hq, hqform, hp], ?_⟩
  obtain ⟨k, hk, hholds⟩ := (hsound.wrapped q p hp).1 hqform
  obtain ⟨g, hg, rfl⟩ := face?_of_kind? hk
  cases hkind : g.kind with
  | file => exact .inl ((ht.spaced.plain p g hg).2 hkind)
  | collection c => exact .inr ⟨c, by rw [HasKind, kind?_of_face? hg, hkind]⟩
  | form => simp [hkind, NodeKind.holdsForms] at hholds
  | token k => simp [hkind, NodeKind.holdsForms] at hholds
  | error => simp [hkind, NodeKind.holdsForms] at hholds

theorem bounds_of_owns (ht : t.OfText length) {id : Nat} {f : Face} (hf : t.face? id = some f)
    (he : f.IsElement) (ho : t.Owns id offset) :
    f.span.start ≤ offset ∧ offset ≤ f.span.stop := by
  rcases ht.element_kind hf he with ⟨k, hk⟩ | ⟨c, hk⟩
  · exact (owns_iff_of_token hf hk).1 ho
  · obtain ⟨h₁, h₂⟩ := (owns_iff_of_collection hf hk).1 ho
    omega

theorem container_owns (ht : t.OfText length) {id p : Nat} {f : Face} (hf : t.face? id = some f)
    (he : f.IsElement) (ho : t.Owns id offset) (hp : t.container? id = some p) {c : Collection}
    (hc : t.HasKind p (.collection c)) : t.Owns p offset := by
  obtain ⟨g, hg, hgk⟩ := face?_of_kind? hc
  have hge : g.IsElement := by simp [Face.IsElement, hgk]
  obtain ⟨form, -, hanc⟩ := ht.sound.ancestors_eq hp
  obtain ⟨hstart, hstop⟩ := ht.spaced.inside p id g f (by simp [hanc]) hg hf hge he
  obtain ⟨hle, hlt⟩ := hstop List.not_mem_nil
  have hbounds := ht.bounds_of_owns hf he ho
  refine (owns_iff_of_collection hg hgk).2 ⟨by omega, ?_⟩
  cases hclosed : g.closed with
  | true =>
    have := hlt hclosed
    exact .inl (by omega)
  | false =>
    by_cases h : offset < g.span.stop
    · exact .inl h
    · exact .inr ⟨rfl, by omega⟩

/-- Where a collection owns a cursor, no other element of its container does. -/
theorem owner_unique (ht : t.OfText length) {i j p : Nat} {f g : Face}
    (hf : t.face? i = some f) (hg : t.face? j = some g) {c : Collection}
    (hk : f.kind = .collection c) (hge : g.IsElement) (hi : t.container? i = some p)
    (hj : t.container? j = some p) (hoi : t.Owns i offset) (hoj : t.Owns j offset) : i = j := by
  have hfe : f.IsElement := by simp [Face.IsElement, hk]
  obtain ⟨hstart, hstop⟩ := (owns_iff_of_collection hf hk).1 hoi
  have hbounds := ht.bounds_of_owns hg hge hoj
  rcases Nat.lt_trichotomy i j with hij | rfl | hij
  · rcases ht.spaced.apart i j f g hij hf hg hfe hge with h | ⟨-, hclosed, hle⟩
    · exact absurd h (ht.sound.not_above_sibling hi hj)
    · simp only [hclosed, reduceCtorEq, false_and, or_false] at hstop
      omega
  · rfl
  · rcases ht.spaced.apart j i g f hij hg hf hge hfe with h | ⟨-, -, hle⟩
    · exact absurd h (ht.sound.not_above_sibling hj hi)
    · omega

theorem element_of_container (ht : t.OfText length) {id p : Nat} (hp : t.container? id = some p) :
    ∃ f, t.face? id = some f ∧ f.IsElement :=
  ht.spaced.element_of_container ht.sound hp

theorem mem_elements_iff_container? (ht : t.OfText length) {c e p : Nat}
    (hc : t.container? c = some p) : e ∈ t.elements p ↔ t.container? e = some p := by
  obtain ⟨k, hk, hholds⟩ := ht.sound.holdsForms_of_container? hc
  exact ht.sound.mem_elements_iff hk hholds

theorem owner?_of_collection (ht : t.OfText length) {i p : Nat} {c : Collection}
    (hk : t.HasKind i (.collection c)) (hp : t.container? i = some p) (ho : t.Owns i offset) :
    t.owner? p offset = some i := by
  obtain ⟨f, hf, hfk⟩ := face?_of_kind? hk
  have hall : ∀ e ∈ (t.elements p).filter fun e => t.Owns e offset, e = i := by
    intro e he
    obtain ⟨hmem, howns⟩ := List.mem_filter.1 he
    have hep := (ht.mem_elements_iff_container? hp).1 hmem
    obtain ⟨g, hg, hge⟩ := ht.element_of_container hep
    exact (ht.owner_unique hf hg hfk hge hp hep ho (by simpa using howns)).symm
  have hmem : i ∈ (t.elements p).filter fun e => t.Owns e offset :=
    List.mem_filter.2 ⟨ht.sound.mem_elements_of_container? hp, by simpa using ho⟩
  simp only [owner?]
  rw [List.find?_eq_none.2, Option.none_or]
  · cases howners : (t.elements p).filter fun e => t.Owns e offset with
    | nil => simp [howners] at hmem
    | cons e es => rw [List.head?_cons, hall e (by simp [howners])]
  · intro e he
    rw [hall e he, hk]
    simp [NodeKind.isWord]

theorem owner?_of_token (ht : t.OfText length) {i p : Nat} {k : Token}
    (hk : t.HasKind i (.token k)) (hp : t.container? i = some p) (ho : t.Owns i offset) :
    ∃ first k', t.owner? p offset = some first ∧ t.HasKind first (.token k') ∧ first ≤ i := by
  have hmem : i ∈ (t.elements p).filter fun e => t.Owns e offset :=
    List.mem_filter.2 ⟨ht.sound.mem_elements_of_container? hp, by simpa using ho⟩
  have hword : (t.kind? i).any (·.isWord) = true := by
    rw [hk]
    rfl
  simp only [owner?]
  cases hfind : ((t.elements p).filter fun e => t.Owns e offset).find?
      fun e => (t.kind? e).any (·.isWord) with
  | none => exact absurd hword (List.find?_eq_none.1 hfind i hmem)
  | some first =>
    obtain ⟨hfirst, as, bs, howners, has⟩ := List.find?_eq_some_iff_append.1 hfind
    obtain ⟨kind, hkind, hisWord⟩ := Option.any_eq_true _ _ |>.1 hfirst
    obtain ⟨k', rfl⟩ : ∃ k', kind = .token k' := by
      cases kind <;> simp_all [NodeKind.isWord]
    refine ⟨first, k', rfl, hkind, ?_⟩
    obtain ⟨kp, hkp, hholds⟩ := ht.sound.holdsForms_of_container? hp
    have hsorted := (ht.sound.pairwise_elements hkp hholds).filter fun e => t.Owns e offset
    rw [howners] at hmem hsorted
    rcases List.mem_append.1 hmem with h | h
    · have := has i h
      simp [hword] at this
    · rcases List.mem_cons.1 h with rfl | h
      · exact Nat.le_refl _
      · exact Nat.le_of_lt ((List.pairwise_cons.1 (List.pairwise_append.1 hsorted).2.1).1 i h)

/-- A collection that owns the cursor lies on the way of the search. -/
theorem descend_root (ht : t.OfText length) {i : Nat} {c : Collection}
    (hk : t.HasKind i (.collection c)) (ho : t.Owns i offset) :
    t.descend root offset = t.descend i offset := by
  induction i using Nat.strongRecOn generalizing c with
  | _ i ih =>
    obtain ⟨f, hf, hfk⟩ := face?_of_kind? hk
    have he : f.IsElement := by simp [Face.IsElement, hfk]
    obtain ⟨p, hp, hpk⟩ := ht.exists_container hf he
    have hdown : t.descend p offset = t.descend i offset :=
      descend_of_owner (ht.owner?_of_collection hk hp ho)
    rcases hpk with rfl | ⟨c', hc'⟩
    · exact hdown
    · rw [ih p (container?_lt hp) hc' (ht.container_owns hf he ho hp hc'), hdown]

/-- The collections around the innermost node are all that own the cursor. -/
theorem isWithin_nodeAt_iff (ht : t.OfText length) {i : Nat} {c : Collection}
    (hk : t.HasKind i (.collection c)) : t.IsWithin (t.nodeAt offset) i ↔ t.Owns i offset := by
  constructor
  · intro h
    apply ht.sound.owns_of_isWithin_nodeAt h
    · intro hroot
      subst hroot
      cases ht.sound.file.unique hk
    · intro hform
      cases hform.unique hk
  · intro howns
    rw [nodeAt, ht.descend_root hk howns]
    exact ht.sound.isWithin_descend i offset

theorem enclosedBy_nodeAt_iff (ht : t.OfText length) (offset : Nat) (wanted : NodeKind → Bool)
    (hwanted : ∀ k, wanted k = true → ∃ c, k = .collection c) :
    t.EnclosedBy (t.nodeAt offset) wanted ↔
      ∃ i c, t.HasKind i (.collection c) ∧ wanted (.collection c) ∧ t.Owns i offset := by
  constructor
  · rintro ⟨i, hi, hkind⟩
    obtain ⟨k, hk, hw⟩ := Option.any_eq_true _ _ |>.1 hkind
    obtain ⟨c, rfl⟩ := hwanted k hw
    refine ⟨i, c, hk, hw, (ht.isWithin_nodeAt_iff hk).1 ?_⟩
    exact (List.mem_cons.1 hi).imp Eq.symm id
  · rintro ⟨i, c, hk, hw, howns⟩
    refine ⟨i, List.mem_cons.2 (((ht.isWithin_nodeAt_iff hk).2 howns).imp Eq.symm id), ?_⟩
    rw [hk]
    exact hw

theorem nodeAt_of_token (ht : t.OfText length) {i : Nat} {k : Token}
    (hk : t.HasKind i (.token k)) (ho : t.Owns i offset) :
    ∃ k', t.HasKind (t.nodeAt offset) (.token k') ∧ t.nodeAt offset ≤ i := by
  obtain ⟨f, hf, hfk⟩ := face?_of_kind? hk
  have he : f.IsElement := by simp [Face.IsElement, hfk]
  obtain ⟨p, hp, hpk⟩ := ht.exists_container hf he
  obtain ⟨first, k', howner, hfirst, hle⟩ := ht.owner?_of_token hk hp ho
  have hup : t.nodeAt offset = t.descend p offset := by
    rcases hpk with rfl | ⟨c, hc⟩
    · rfl
    · exact ht.descend_root hc (ht.container_owns hf he ho hp hc)
  have hleaf : t.owner? first offset = none := by
    simp [owner?, ht.sound.elements_of_isWord hfirst rfl]
  have hnode : t.nodeAt offset = first := by
    rw [hup, descend_of_owner howner, descend_of_no_owner hleaf]
  exact ⟨k', hnode ▸ hfirst, hnode ▸ hle⟩

/-- A word behind the first one that owns the cursor starts where that one ends, or later. -/
theorem nodeAt_first (ht : t.OfText length) {i : Nat} {k : Token} {s : Span}
    (hk : t.HasKind i (.token k)) (hs : t.span? i = some s) (hr : s.Reaches offset) :
    t.nodeAt offset = i ∨
      ∃ first, t.span? (t.nodeAt offset) = some first ∧ first.stop ≤ s.start := by
  obtain ⟨f, hf, hfk⟩ := face?_of_kind? hk
  obtain rfl : f.span = s := Option.some.inj ((span?_of_face? hf).symm.trans hs)
  obtain ⟨k', hk', hle⟩ := ht.nodeAt_of_token hk ((owns_iff_of_token hf hfk).2 hr)
  rcases Nat.lt_or_eq_of_le hle with hlt | heq
  · obtain ⟨g, hg, hgk⟩ := face?_of_kind? hk'
    have hge : g.IsElement := by simp [Face.IsElement, hgk]
    have hfe : f.IsElement := by simp [Face.IsElement, hfk]
    refine .inr ⟨g.span, span?_of_face? hg, ?_⟩
    rcases ht.spaced.apart _ i g f hlt hg hf hge hfe with h | ⟨-, -, h⟩
    · -- a word has nothing below it
      obtain ⟨p, hp, hpk⟩ := ht.exists_container hf hfe
      obtain ⟨c, hc⟩ := exists_child_of_mem_ancestors h
      have := ht.sound.inner c _ hc _ hk'
      simp [NodeKind.isWord] at this
    · exact h
  · exact .inl heq

theorem nodeAt_reaches (ht : t.OfText length) {k : Token} {s : Span}
    (hk : t.HasKind (t.nodeAt offset) (.token k)) (hs : t.span? (t.nodeAt offset) = some s) :
    s.Reaches offset := by
  obtain ⟨f, hf, hfk⟩ := face?_of_kind? hk
  obtain rfl : f.span = s := Option.some.inj ((span?_of_face? hf).symm.trans hs)
  rcases descend_eq_or_owns t root offset with h | h
  · rw [nodeAt, h] at hk
    cases ht.sound.file.unique hk
  · exact (owns_iff_of_token hf hfk).1 h

/-- The word that a cursor is in, or right behind, is the innermost node. -/
theorem nodeAt_eq_of_token (ht : t.OfText length) {i : Nat} {k : Token} {s : Span}
    (hk : t.HasKind i (.token k)) (hs : t.span? i = some s) (hstart : s.start < offset)
    (hstop : offset ≤ s.stop) : t.nodeAt offset = i := by
  have hr : s.Reaches offset := ⟨Nat.le_of_lt hstart, hstop⟩
  rcases ht.nodeAt_first hk hs hr with h | ⟨first, hfirst, hle⟩
  · exact h
  · obtain ⟨f, hf, hfk⟩ := face?_of_kind? hk
    obtain rfl : f.span = s := Option.some.inj ((span?_of_face? hf).symm.trans hs)
    obtain ⟨k', hk', -⟩ := ht.nodeAt_of_token hk ((owns_iff_of_token hf hfk).2 hr)
    have := (ht.nodeAt_reaches hk' hfirst).2
    omega

end OfText

end SourceTree

/-- Whether some collection of the whole tree owns a cursor. -/
def SourceTree.IsEnclosed (t : SourceTree) (offset : Nat) : Prop :=
  ∃ id c, t.HasKind id (.collection c) ∧ t.Owns id offset

/-- The innermost node at a cursor tells all about what encloses the cursor. The collections it
stands in are the ones that own the cursor; it is a word as soon as one reaches the cursor, and then
it is a word that does so, with no other such word before it. In particular it is every word that the
cursor is in or right behind. -/
structure SourceTree.LocatesCursor (t : SourceTree) (offset : Nat) : Prop where
  around : ∀ id c, t.HasKind id (.collection c) →
    (t.IsWithin (t.nodeAt offset) id ↔ t.Owns id offset)
  startsForm : (Cursor.ofOffset t offset).startsForm = true ↔ ¬ t.IsEnclosed offset
  insideList : (Cursor.ofOffset t offset).insideList = true ↔
    ∃ id, t.HasKind id (.collection .list) ∧ t.Owns id offset
  word : (∃ k, t.HasKind (t.nodeAt offset) (.token k)) ↔
    ∃ id k s, t.HasKind id (.token k) ∧ t.span? id = some s ∧ s.Reaches offset
  reached : ∀ k s, t.HasKind (t.nodeAt offset) (.token k) →
    t.span? (t.nodeAt offset) = some s → s.Reaches offset
  first : ∀ id k s, t.HasKind id (.token k) → t.span? id = some s → s.Reaches offset →
    t.nodeAt offset = id ∨
      ∃ first, t.span? (t.nodeAt offset) = some first ∧ first.stop ≤ s.start
  within : ∀ id k s, t.HasKind id (.token k) → t.span? id = some s → s.start < offset →
    offset ≤ s.stop → t.nodeAt offset = id

namespace SourceTree.OfText

variable {t : SourceTree} {length : Nat}

theorem startsForm_iff (ht : t.OfText length) (offset : Nat) :
    (Cursor.ofOffset t offset).startsForm = true ↔ ¬ t.IsEnclosed offset := by
  have henclosed := ht.enclosedBy_nodeAt_iff offset NodeKind.isDelimited fun k hk => by
    cases k <;> simp_all [NodeKind.isDelimited]
  simp [Cursor.ofOffset, startsForm, IsEnclosed, henclosed, NodeKind.isDelimited]

theorem insideList_iff (ht : t.OfText length) (offset : Nat) :
    (Cursor.ofOffset t offset).insideList = true ↔
      ∃ id, t.HasKind id (.collection .list) ∧ t.Owns id offset := by
  have henclosed := ht.enclosedBy_nodeAt_iff offset (· = .collection .list) fun k hk =>
    ⟨.list, by simpa using hk⟩
  simp only [Cursor.ofOffset, insideList, henclosed, decide_eq_true_eq, NodeKind.collection.injEq]
  constructor
  · rintro ⟨id, c, hk, rfl, ho⟩
    exact ⟨id, hk, ho⟩
  · rintro ⟨id, hk, ho⟩
    exact ⟨id, .list, hk, rfl, ho⟩

theorem nodeAt_token_iff (ht : t.OfText length) (offset : Nat) :
    (∃ k, t.HasKind (t.nodeAt offset) (.token k)) ↔
      ∃ id k s, t.HasKind id (.token k) ∧ t.span? id = some s ∧ s.Reaches offset := by
  constructor
  · rintro ⟨k, hk⟩
    obtain ⟨f, hf, -⟩ := face?_of_kind? hk
    have hs := span?_of_face? hf
    exact ⟨t.nodeAt offset, k, f.span, hk, hs, ht.nodeAt_reaches hk hs⟩
  · rintro ⟨id, k, s, hk, hs, hr⟩
    obtain ⟨f, hf, hfk⟩ := face?_of_kind? hk
    obtain rfl : f.span = s := Option.some.inj ((span?_of_face? hf).symm.trans hs)
    obtain ⟨k', hk', -⟩ := ht.nodeAt_of_token hk ((owns_iff_of_token hf hfk).2 hr)
    exact ⟨k', hk'⟩

end SourceTree.OfText

/-- Every text that can be read has a tree, and the tree locates every cursor, also one past the
end. -/
theorem read_locatesCursor {source : String} {forms : List Datum} (h : read source = .ok forms)
    (offset : Nat) : ∃ t, SourceTree.ofData forms = .ok t ∧ t.LocatesCursor offset := by
  obtain ⟨t, hdata, ht⟩ := read_ofText h
  exact ⟨t, hdata, fun id c => ht.isWithin_nodeAt_iff, ht.startsForm_iff offset,
    ht.insideList_iff offset, ht.nodeAt_token_iff offset, fun k s => ht.nodeAt_reaches,
    fun id k s => ht.nodeAt_first, fun id k s => ht.nodeAt_eq_of_token⟩

/-- Two strings that meet at the cursor, in a vector and a list that nothing closes: the first one is
the innermost node. -/
theorem read_locatesCursor_unclosed :
    read "(f [\"a\"\"b\"" = .ok [.group .list ⟨0, 10⟩ false [.token .symbol ⟨1, 2⟩ "f",
      .group .vector ⟨3, 10⟩ false [.token .literal ⟨4, 7⟩ "\"a\"",
        .token .literal ⟨7, 10⟩ "\"b\""]]] ∧
    ∃ t, SourceTree.ofData [.group .list ⟨0, 10⟩ false [.token .symbol ⟨1, 2⟩ "f",
      .group .vector ⟨3, 10⟩ false [.token .literal ⟨4, 7⟩ "\"a\"",
        .token .literal ⟨7, 10⟩ "\"b\""]]] = .ok t ∧
      t.nodeAt 7 = 8 ∧ t.span? 8 = some ⟨4, 7⟩ ∧ t.LocatesCursor 7 := by
  have h : read "(f [\"a\"\"b\"" = .ok [.group .list ⟨0, 10⟩ false [.token .symbol ⟨1, 2⟩ "f",
      .group .vector ⟨3, 10⟩ false [.token .literal ⟨4, 7⟩ "\"a\"",
        .token .literal ⟨7, 10⟩ "\"b\""]]] := rfl
  obtain ⟨t, htree, hlocates⟩ := read_locatesCursor h 7
  have hnode : t.nodeAt 7 = 8 ∧ t.span? 8 = some ⟨4, 7⟩ := by
    obtain rfl := Except.ok.inj htree
    decide +kernel
  exact ⟨h, t, htree, hnode.1, hnode.2, hlocates⟩

end PhelAssist
