import Mathlib.Data.List.Nodup
import PhelAssist.Proofs.Pairs
import PhelAssist.Proofs.Shape

namespace PhelAssist

namespace SourceTree

variable (t : SourceTree)

/-- The climb from a node to the element of `container` around it, cut off after so many rounds: a
round goes up one link, and the index is looked up once the link leads to `container`. Nothing comes
of a climb that is cut off before its end. -/
def climb (container : Nat) : Nat → Nat → Option (Option (Nat × Nat))
  | 0, _ => none
  | rounds + 1, current =>
    match t.parent? current with
    | none => some none
    | some p =>
      if p = container then
        let element := t.unwrap current
        some (((t.elements container).idxOf? element).map fun index => (index, element))
      else climb container rounds p

variable {t} {container id : Nat}

theorem elementAround?_of_parent_none (h : t.parent? id = none) :
    t.elementAround? container id = none := by
  rw [elementAround?, childToward?]
  split
  · rfl
  · next p hp => simp [h] at hp

theorem elementAround?_of_parent {p : Nat} (h : t.parent? id = some p) :
    t.elementAround? container id =
      if p = container then
        ((t.elements container).idxOf? (t.unwrap id)).map fun index => (index, t.unwrap id)
      else t.elementAround? container p := by
  rw [elementAround?, childToward?]
  split
  · next hnone => simp [h] at hnone
  · next q hq =>
    obtain rfl : p = q := Option.some.inj (h.symm.trans hq)
    split
    · simp only [Option.bind_eq_bind, Option.bind_some, Option.map_eq_bind]
      rfl
    · rfl

/-- The climb is over after one round for each node above, and one more. -/
theorem climb_eq_elementAround? {rounds : Nat} (h : (t.ancestors id).length < rounds) :
    t.climb container rounds id = some (t.elementAround? container id) := by
  induction rounds generalizing id with
  | zero => exact absurd h (Nat.not_lt_zero _)
  | succ rounds ih =>
    cases hp : t.parent? id with
    | none => simp [climb, hp, elementAround?_of_parent_none hp]
    | some p =>
      rw [ancestors_eq_cons hp, List.length_cons] at h
      rw [elementAround?_of_parent hp]
      simp only [climb, hp]
      split
      · rfl
      · exact ih (Nat.lt_of_succ_lt_succ h)

theorem getElem?_elements_eq_some_iff {p i e : Nat} :
    (t.elements p)[i]? = some e ↔ ∃ c, (t.children p)[i]? = some c ∧ t.unwrap c = e := by
  rw [elements, List.getElem?_map, Option.map_eq_some_iff]

theorem Linked.nodup_children (ht : t.Linked) (p : Nat) : (t.children p).Nodup :=
  (ht.increasing p).imp Nat.ne_of_lt

theorem Linked.isWithin_unwrap (ht : t.Linked) (c : Nat) : t.IsWithin (t.unwrap c) c := by
  apply (unwrap_eq_or_mem c).imp_right
  intro hmem
  exact (mem_ancestors_iff ((ht.mem_children c _).1 hmem)).2 (.inl rfl)

namespace Sound

/-- Siblings are all wrapped or all bare, so what they wrap tells them apart. -/
theorem unwrap_inj (ht : t.Sound) {a b p : Nat} (ha : t.parent? a = some p)
    (hb : t.parent? b = some p) (h : t.unwrap a = t.unwrap b) : a = b := by
  have hsame : t.HasKind a .form ↔ t.HasKind b .form :=
    (ht.wrapped a p ha).trans (ht.wrapped b p hb).symm
  by_cases hform : t.HasKind a .form
  · rw [ht.unwrap_form hform, ht.unwrap_form (hsame.1 hform)] at h
    exact Nat.succ.inj h
  · rwa [unwrap, unwrap, if_neg hform, if_neg (mt hsame.2 hform)] at h

theorem nodup_elements (ht : t.Sound) (p : Nat) : (t.elements p).Nodup := by
  refine List.Nodup.map_on (fun a ha b hb => ?_) (ht.nodup_children p)
  exact ht.unwrap_inj ((ht.mem_children p a).1 ha) ((ht.mem_children p b).1 hb)

theorem idxOf?_elements (ht : t.Sound) {p i e : Nat} :
    (t.elements p).idxOf? e = some i ↔ (t.elements p)[i]? = some e := by
  rw [List.idxOf?_eq_some_iff, List.getElem?_eq_some_iff]
  constructor
  · rintro ⟨hi, hget, -⟩
    exact ⟨hi, hget⟩
  · rintro ⟨hi, hget⟩
    refine ⟨hi, hget, fun j hj heq => ?_⟩
    exact Nat.ne_of_lt hj ((ht.nodup_elements p).getElem_inj_iff.1 (heq.trans hget.symm))

/-- The child at an index is the one toward a node exactly if the node lies within it. -/
theorem childToward?_eq_iff_isWithin (ht : t.Sound) {i c : Nat}
    (hc : (t.children container)[i]? = some c) :
    t.childToward? container id = some c ↔ t.IsWithin id c := by
  have hparent := (ht.mem_children container c).1 (List.mem_of_getElem? hc)
  rw [childToward?_eq_some_iff, and_iff_right hparent, IsWithin, @eq_comm _ id]

/-- The element around a node stands at the index of the child that the node lies within, whether
the children of the container are wrapped or not. -/
theorem elementAround?_eq_some_iff (ht : t.Sound) {i e : Nat} :
    t.elementAround? container id = some (i, e) ↔
      ∃ c, (t.children container)[i]? = some c ∧ t.IsWithin id c ∧ t.unwrap c = e := by
  simp only [elementAround?, Option.bind_eq_bind, Option.bind_eq_some_iff, Option.pure_def,
    Option.some.injEq, Prod.mk.injEq, ht.idxOf?_elements]
  constructor
  · rintro ⟨c, hc, index, hindex, rfl, rfl⟩
    obtain ⟨c', hc', heq⟩ := getElem?_elements_eq_some_iff.1 hindex
    have hparent := (childToward?_eq_some_iff.1 hc).1
    have hparent' := (ht.mem_children container c').1 (List.mem_of_getElem? hc')
    obtain rfl := ht.unwrap_inj hparent' hparent heq
    exact ⟨c', hc', (ht.childToward?_eq_iff_isWithin hc').1 hc, rfl⟩
  · rintro ⟨c, hc, hwithin, rfl⟩
    refine ⟨c, (ht.childToward?_eq_iff_isWithin hc).2 hwithin, i, ?_, rfl, rfl⟩
    exact getElem?_elements_eq_some_iff.2 ⟨c, hc, rfl⟩

theorem elementAround?_of_getElem? (ht : t.Sound) {i e : Nat}
    (he : (t.elements container)[i]? = some e) (hid : t.IsWithin id e) :
    t.elementAround? container id = some (i, e) := by
  obtain ⟨c, hc, rfl⟩ := getElem?_elements_eq_some_iff.1 he
  exact ht.elementAround?_eq_some_iff.2 ⟨c, hc, hid.trans (ht.isWithin_unwrap c), rfl⟩

/-- No node lies within two children. -/
theorem index_unique (ht : t.Sound) {i j c d : Nat} (hc : (t.children container)[i]? = some c)
    (hd : (t.children container)[j]? = some d) (hidc : t.IsWithin id c) (hidd : t.IsWithin id d) :
    j = i := by
  have htoward := (ht.childToward?_eq_iff_isWithin hc).2 hidc
  have htoward' := (ht.childToward?_eq_iff_isWithin hd).2 hidd
  obtain rfl : c = d := Option.some.inj (htoward.symm.trans htoward')
  obtain ⟨hi, hci⟩ := List.getElem?_eq_some_iff.1 hc
  obtain ⟨hj, hcj⟩ := List.getElem?_eq_some_iff.1 hd
  exact (ht.nodup_children container).getElem_inj_iff.1 (hcj.trans hci.symm)

theorem exists_elementAround?_iff (ht : t.Sound) :
    (∃ i e, t.elementAround? container id = some (i, e)) ↔ container ∈ t.ancestors id := by
  constructor
  · rintro ⟨i, e, h⟩
    obtain ⟨c, hc, hwithin, -⟩ := ht.elementAround?_eq_some_iff.1 h
    have hparent := (ht.mem_children container c).1 (List.mem_of_getElem? hc)
    have habove : container ∈ t.ancestors c := (mem_ancestors_iff hparent).2 (.inl rfl)
    rcases hwithin with rfl | hwithin
    · exact habove
    · exact mem_ancestors_trans hwithin habove
  · intro h
    obtain ⟨c, hc⟩ := exists_childToward? h
    have hmem := (ht.mem_children container c).2 (childToward?_eq_some_iff.1 hc).1
    obtain ⟨i, hi⟩ := List.mem_iff_getElem?.1 hmem
    have hwithin := (ht.childToward?_eq_iff_isWithin hi).1 hc
    exact ⟨i, _, ht.elementAround?_eq_some_iff.2 ⟨c, hi, hwithin, rfl⟩⟩

end Sound

/-- How the element of `container` around a node is found. The climb from the node ends, and it
finds an element exactly if `container` lies above the node. The element has the index of the child
that the node lies within; no other child is around the node, and no other index has the element. -/
structure LocatesElement (t : SourceTree) (container id : Nat) : Prop where
  ends : ∀ rounds, (t.ancestors id).length < rounds →
    t.climb container rounds id = some (t.elementAround? container id)
  found : (∃ i e, t.elementAround? container id = some (i, e)) ↔ container ∈ t.ancestors id
  element : ∀ i e, t.elementAround? container id = some (i, e) →
    (t.elements container)[i]? = some e ∧ ∀ j, (t.elements container)[j]? = some e → j = i
  child : ∀ i e, t.elementAround? container id = some (i, e) →
    (∃ c, (t.children container)[i]? = some c ∧ t.IsWithin id c) ∧
      ∀ j c, (t.children container)[j]? = some c → t.IsWithin id c → j = i

end SourceTree

/-- In a tree that events describe, the element around a node is found below every node above it,
be that a file, a collection, a form or a region in error. -/
theorem ofEvents_locatesElement {events : List Event} {t : SourceTree}
    (h : SourceTree.ofEvents events = .ok t) (container id : Nat) :
    t.LocatesElement container id := by
  obtain ⟨ht, -⟩ := ofEvents_shaped h
  refine ⟨fun rounds => SourceTree.climb_eq_elementAround?, ht.exists_elementAround?_iff, ?_, ?_⟩
  · intro i e haround
    obtain ⟨c, hc, -, he⟩ := ht.elementAround?_eq_some_iff.1 haround
    have hget : (t.elements container)[i]? = some e :=
      SourceTree.getElem?_elements_eq_some_iff.2 ⟨c, hc, he⟩
    refine ⟨hget, fun j hj => ?_⟩
    exact Option.some.inj ((ht.idxOf?_elements.2 hj).symm.trans (ht.idxOf?_elements.2 hget))
  · intro i e haround
    obtain ⟨c, hc, hwithin, -⟩ := ht.elementAround?_eq_some_iff.1 haround
    exact ⟨⟨c, hc, hwithin⟩, fun j d hd hwithin' => ht.index_unique hc hd hwithin hwithin'⟩

/-- A symbol in a vector that stands without a form in a region in error, seen from the list, from
the form around the region, from the region, and from the vector; and nothing is found from a
sibling. -/
theorem ofEvents_locatesElement_error :
    ∃ t, SourceTree.ofEvents [.start (.collection .list) 0, .token (.token .symbol) "f" ⟨1, 2⟩,
      .start .error 3, .token (.token .symbol) "x" ⟨3, 4⟩, .start (.collection .vector) 4,
      .token (.token .symbol) "y" ⟨5, 6⟩, .finish 7 true, .finish 7 true, .finish 9 false] = .ok t ∧
      (t.elementAround? 2 10 = some (1, 6) ∧ t.elementAround? 5 10 = some (0, 6) ∧
        t.elementAround? 6 10 = some (1, 8) ∧ t.elementAround? 8 10 = some (0, 10) ∧
        t.elementAround? 7 10 = none) ∧
      t.LocatesElement 6 10 := by
  have h : SourceTree.ofEvents [.start (.collection .list) 0,
      .token (.token .symbol) "f" ⟨1, 2⟩, .start .error 3, .token (.token .symbol) "x" ⟨3, 4⟩,
      .start (.collection .vector) 4, .token (.token .symbol) "y" ⟨5, 6⟩, .finish 7 true,
      .finish 7 true, .finish 9 false] = .ok _ := rfl
  exact ⟨_, h, by decide +kernel, ofEvents_locatesElement h 6 10⟩

end PhelAssist
