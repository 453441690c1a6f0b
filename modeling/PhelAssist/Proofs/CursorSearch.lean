import Mathlib.Logic.Relation
import PhelAssist.Completion.Cursor
import PhelAssist.Proofs.Shape

namespace PhelAssist

theorem Node.Owns.reaches {n : Node} {offset : Nat} (h : n.Owns offset) :
    n.span.Reaches offset := by
  unfold Node.Owns at h
  split at h
  · exact h
  · exact h
  · rcases h with h | ⟨-, hstart, hstop⟩
    · exact h.reaches
    · exact ⟨Nat.le_of_lt hstart, Nat.le_of_eq hstop⟩
  · exact h.elim
  · exact h.elim

namespace SourceTree

variable {t : SourceTree} {offset : Nat}

theorem element_of_owns {id : Nat} (h : t.Owns id offset) :
    ∃ f, t.face? id = some f ∧ f.IsElement := by
  obtain ⟨n, hn, howns⟩ := h
  refine ⟨n.face, by simp [face?, Option.mem_def.1 hn], fun hfile => ?_, fun hform => ?_⟩
  · replace hfile : n.kind = .file := hfile
    simp [Node.Owns, hfile] at howns
  · replace hform : n.kind = .form := hform
    simp [Node.Owns, hform] at howns

theorem not_form_of_owns {id : Nat} (h : t.Owns id offset) : ¬ t.HasKind id .form := by
  obtain ⟨f, hf, he⟩ := element_of_owns h
  intro hform
  exact he.2 (HasKind.unique (kind?_of_face? hf) hform)

theorem not_owns_of_no_owner {id e : Nat} (h : t.owner? id offset = none)
    (he : e ∈ t.elements id) : ¬ t.Owns e offset := by
  intro howns
  have hmem : e ∈ (t.elements id).filter fun e => t.Owns e offset :=
    List.mem_filter.2 ⟨he, by simpa using howns⟩
  obtain ⟨-, hhead⟩ := Option.or_eq_none_iff.1 h
  rw [List.head?_eq_none_iff.1 hhead] at hmem
  exact List.not_mem_nil hmem

theorem descend_of_owner {id e : Nat} (h : t.owner? id offset = some e) :
    t.descend id offset = t.descend e offset := by
  rw [descend]
  split
  · next hnone => simp [h] at hnone
  · next e' he' =>
    obtain rfl : e = e' := Option.some.inj (h.symm.trans he')
    rfl

theorem descend_of_no_owner {id : Nat} (h : t.owner? id offset = none) :
    t.descend id offset = id := by
  rw [descend]
  split
  · rfl
  · next e he => simp [h] at he

theorem descend_reached (t : SourceTree) (id offset : Nat) :
    Relation.ReflTransGen (fun a b => t.owner? a offset = some b) id (t.descend id offset) := by
  induction id using descend.induct t offset with
  | case1 id hnone =>
    rw [descend_of_no_owner hnone]
  | case2 id e howner ih =>
    rw [descend_of_owner howner]
    exact .head howner ih

theorem owner?_descend (t : SourceTree) (id offset : Nat) :
    t.owner? (t.descend id offset) offset = none := by
  induction id using descend.induct t offset with
  | case1 id hnone =>
    rw [descend_of_no_owner hnone]
    exact hnone
  | case2 id e howner ih =>
    rw [descend_of_owner howner]
    exact ih

theorem descend_eq_or_owns (t : SourceTree) (id offset : Nat) :
    t.descend id offset = id ∨ t.Owns (t.descend id offset) offset := by
  rcases Relation.ReflTransGen.cases_tail (t.descend_reached id offset) with h | ⟨p, -, howner⟩
  · exact .inl h
  · exact .inr (owner?_mem howner).2

theorem contains_nodeAt (t : SourceTree) (offset : Nat) :
    t.Contains (t.nodeAt offset) := by
  rcases descend_eq_or_owns t root offset with h | h
  · rw [nodeAt, h]
    exact t.nonempty
  · obtain ⟨n, hn, -⟩ := h
    exact lt_size_of_node? hn

theorem ancestors_root : t.ancestors root = [] := by
  refine List.eq_nil_iff_forall_not_mem.2 fun a ha => ?_
  exact Nat.not_lt_zero a (lt_of_mem_ancestors ha)

/-- Some collection above a node does not reach around it. -/
def IsOverrun (t : SourceTree) (id : Nat) : Prop :=
  ∃ a ∈ t.ancestors id, ∃ c outer inner, t.HasKind a (.collection c) ∧ t.span? a = some outer ∧
    t.span? id = some inner ∧ ¬ outer.Covers inner

theorem overrun?_isSome_iff {id : Nat} {n : Node} (hn : t.node? id = some n) :
    (Cursor.overrun? t id n.span).isSome ↔ t.IsOverrun id := by
  have hspan : t.span? id = some n.span := by simp [span?, hn]
  unfold Cursor.overrun?
  rw [List.find?_isSome]
  constructor
  · intro h
    obtain ⟨outer, hmem, hout⟩ := h
    obtain ⟨a, ha, hnode⟩ := List.mem_filterMap.1 hmem
    obtain ⟨hdelimited, hcovers⟩ : outer.kind.isDelimited ∧ ¬ outer.span.Covers n.span := by
      simpa using hout
    obtain ⟨c, hc⟩ : ∃ c, outer.kind = .collection c := by
      cases hk : outer.kind <;> simp_all [NodeKind.isDelimited]
    refine ⟨a, ha, c, outer.span, n.span, ?_, by simp [span?, hnode], hspan, hcovers⟩
    simp [HasKind, kind?, hnode, hc]
  · intro h
    obtain ⟨a, ha, c, span, inner, hkind, houter, hinner, hcovers⟩ := h
    obtain ⟨outer, hnode, hc⟩ := Option.map_eq_some_iff.1 hkind
    obtain rfl : outer.span = span := by simpa [span?, hnode] using houter
    obtain rfl : n.span = inner := Option.some.inj (hspan.symm.trans hinner)
    refine ⟨outer, List.mem_filterMap.2 ⟨a, ha, hnode⟩, ?_⟩
    simp [hc, NodeKind.isDelimited, hcovers]

namespace Sound

/-- Above an element come at most its form, then the node that it is an element of. -/
theorem above_element (ht : t.Sound) {e p : Nat} (h : e ∈ t.elements p) :
    p ∈ t.ancestors e ∧ ∀ a ∈ t.ancestors e, t.HasKind a .form ∨ t.IsWithin p a := by
  obtain ⟨c, hc, rfl⟩ := List.mem_map.1 h
  have hparent := (ht.mem_children p c).1 hc
  have hup : ∀ a ∈ t.ancestors c, t.IsWithin p a := by
    intro a ha
    rw [ancestors_eq_cons hparent] at ha
    exact (List.mem_cons.1 ha).imp Eq.symm id
  have hmem : p ∈ t.ancestors c := by simp [ancestors_eq_cons hparent]
  by_cases hform : t.HasKind c .form
  · have hinner : t.parent? (c + 1) = some c := by
      apply (ht.mem_children c (c + 1)).1
      simp [ht.single c hform]
    rw [ht.unwrap_form hform, ancestors_eq_cons hinner]
    refine ⟨List.mem_cons_of_mem c hmem, ?_⟩
    intro a ha
    rcases List.mem_cons.1 ha with rfl | ha
    · exact .inl hform
    · exact .inr (hup a ha)
  · rw [unwrap, if_neg hform]
    exact ⟨hmem, fun a ha => .inr (hup a ha)⟩

theorem isWithin_descend (ht : t.Sound) (id offset : Nat) :
    t.IsWithin (t.descend id offset) id := by
  induction id using descend.induct t offset with
  | case1 id hnone => exact .inl (descend_of_no_owner hnone)
  | case2 id e howner ih =>
    rw [descend_of_owner howner]
    exact ih.trans (.inr (ht.above_element (owner?_mem howner).1).1)

/-- The search passes through owners of the cursor, and through forms. -/
theorem owns_of_isWithin_descend (ht : t.Sound) {id a : Nat}
    (h : t.IsWithin (t.descend id offset) a) :
    t.IsWithin id a ∨ t.HasKind a .form ∨ t.Owns a offset := by
  induction id using descend.induct t offset with
  | case1 id hnone =>
    rw [descend_of_no_owner hnone] at h
    exact .inl h
  | case2 id e howner ih =>
    obtain ⟨hmem, howns⟩ := owner?_mem howner
    rw [descend_of_owner howner] at h
    rcases ih h with hwithin | hpassed
    · rcases hwithin with rfl | ha
      · exact .inr (.inr howns)
      · rcases (ht.above_element hmem).2 a ha with hform | hwithin
        · exact .inr (.inl hform)
        · exact .inl hwithin
    · exact .inr hpassed

theorem owns_of_isWithin_nodeAt (ht : t.Sound) {a : Nat} (h : t.IsWithin (t.nodeAt offset) a)
    (hroot : a ≠ root) (hform : ¬ t.HasKind a .form) : t.Owns a offset := by
  rcases ht.owns_of_isWithin_descend h with (rfl | ha) | ha | howns
  · exact absurd rfl hroot
  · simp [ancestors_root] at ha
  · exact absurd ha hform
  · exact howns

theorem not_form_nodeAt (ht : t.Sound) (offset : Nat) : ¬ t.HasKind (t.nodeAt offset) .form := by
  rcases descend_eq_or_owns t root offset with h | h
  · rw [nodeAt, h]
    intro hform
    cases ht.file.unique hform
  · exact not_form_of_owns h

/-- What owns a cursor and has nodes below it is no word. -/
theorem kind_of_owns_of_mem_ancestors (ht : t.Sound) {a id : Nat} (ha : a ∈ t.ancestors id)
    (howns : t.Owns a offset) : (∃ c, t.HasKind a (.collection c)) ∨ t.HasKind a .error := by
  obtain ⟨f, hf, hfile, hform⟩ := element_of_owns howns
  obtain ⟨child, hchild⟩ := exists_child_of_mem_ancestors ha
  have hkind := kind?_of_face? hf
  have hword := ht.inner child a hchild f.kind hkind
  cases hk : f.kind with
  | collection c => exact .inl ⟨c, hk ▸ hkind⟩
  | error => exact .inr (hk ▸ hkind)
  | file => exact absurd hk hfile
  | form => exact absurd hk hform
  | token k => simp [hk, NodeKind.isWord] at hword

/-- A cursor that was found on a tree fits the tree, unless the node found runs over a collection
around it. -/
theorem check_ofOffset (ht : t.Sound) (offset : Nat) :
    (¬ t.IsOverrun (t.nodeAt offset) → (Cursor.ofOffset t offset).check t = .ok ()) ∧
      (t.IsOverrun (t.nodeAt offset) →
        ∃ detail, (Cursor.ofOffset t offset).check t = .error (.malformedTree detail)) := by
  obtain ⟨n, hn⟩ := exists_node (t.contains_nodeAt offset)
  have hform : n.kind ≠ .form := by
    intro hk
    apply ht.not_form_nodeAt offset
    simp [HasKind, kind?, hn, hk]
  have hinside : ¬ (n.kind ≠ .file ∧ ¬ n.span.Reaches offset) := by
    intro houtside
    obtain ⟨hfile, hreach⟩ := houtside
    rcases descend_eq_or_owns t root offset with h | h
    · rw [nodeAt, h] at hn
      apply hfile
      simpa [HasKind, kind?, hn] using ht.file
    · obtain ⟨m, hm, howns⟩ := h
      obtain rfl : n = m := Option.some.inj (hn.symm.trans hm)
      exact hreach howns.reaches
  rw [← overrun?_isSome_iff hn]
  simp only [Cursor.check, Cursor.ofOffset, hn, hform, hinside, if_false, ne_eq, not_true_eq_false]
  cases hover : Cursor.overrun? t (t.nodeAt offset) n.span with
  | none => simp
  | some outer => simp

end Sound

end SourceTree

/-- How the search for a cursor goes, wherever the spans of the nodes lie. It goes from owner to
owner until no element owns the cursor. The node it ends at is the file or an owner, and so are all
collections and regions in error around that node. The cursor that comes of it fits the tree, or the
tree is malformed since a collection around the node does not reach around it. -/
structure SourceTree.FindsCursor (t : SourceTree) (offset : Nat) : Prop where
  reached : Relation.ReflTransGen (fun a b => t.owner? a offset = some b) root (t.nodeAt offset)
  owned : t.nodeAt offset = root ∨
    ¬ t.HasKind (t.nodeAt offset) .form ∧ t.Owns (t.nodeAt offset) offset
  between : ∀ a ∈ t.ancestors (t.nodeAt offset), a ≠ root → ¬ t.HasKind a .form →
    t.Owns a offset ∧ ((∃ c, t.HasKind a (.collection c)) ∨ t.HasKind a .error)
  innermost : ∀ e ∈ t.elements (t.nodeAt offset), ¬ t.Owns e offset
  fits : ¬ t.IsOverrun (t.nodeAt offset) → (Cursor.ofOffset t offset).check t = .ok ()
  malformed : t.IsOverrun (t.nodeAt offset) →
    ∃ detail, (Cursor.ofOffset t offset).check t = .error (.malformedTree detail)

/-- Every tree that events describe finds every cursor. -/
theorem ofEvents_findsCursor {events : List Event} {t : SourceTree}
    (h : SourceTree.ofEvents events = .ok t) (offset : Nat) : t.FindsCursor offset := by
  obtain ⟨ht, -⟩ := ofEvents_shaped h
  obtain ⟨hfits, hmalformed⟩ := ht.check_ofOffset offset
  refine ⟨t.descend_reached SourceTree.root offset, ?_, ?_, ?_, hfits, hmalformed⟩
  · apply (t.descend_eq_or_owns SourceTree.root offset).imp_right
    intro howns
    exact ⟨SourceTree.not_form_of_owns howns, howns⟩
  · intro a ha hroot hform
    have howns := ht.owns_of_isWithin_nodeAt (.inr ha) hroot hform
    exact ⟨howns, ht.kind_of_owns_of_mem_ancestors ha howns⟩
  · intro e he
    exact SourceTree.not_owns_of_no_owner (t.owner?_descend SourceTree.root offset) he

/-- A word that stands without a form in a region in error, and ends behind the list around both. -/
theorem ofEvents_findsCursor_overrun :
    ∃ t, SourceTree.ofEvents [.start (.collection .list) 0, .start .error 1,
      .token (.token .symbol) "foo" ⟨5, 8⟩, .finish 7 true, .finish 7 true] = .ok t ∧
      t.nodeAt 6 = 5 ∧ t.ancestors 5 = [4, 3, 2, 1, 0] ∧ t.IsOverrun 5 ∧ t.FindsCursor 6 := by
  have h : SourceTree.ofEvents [.start (.collection .list) 0, .start .error 1,
      .token (.token .symbol) "foo" ⟨5, 8⟩, .finish 7 true, .finish 7 true] = .ok _ := rfl
  refine ⟨_, h, by decide +kernel, by decide +kernel, ?_, ofEvents_findsCursor h 6⟩
  exact ⟨2, by decide +kernel, .list, ⟨0, 7⟩, ⟨5, 8⟩, rfl, rfl, rfl, by decide⟩

end PhelAssist
