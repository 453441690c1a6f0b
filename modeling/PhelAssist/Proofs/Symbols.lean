import Mathlib.Data.List.Basic
import PhelAssist.Scope.Visible
import PhelAssist.Proofs.Links

namespace PhelAssist.SourceTree

variable {t : SourceTree}

/-- Two trees agree on some nodes and on all that is below them. -/
structure AgreeOn (t t' : SourceTree) (nodes : Nat → Prop) : Prop where
  kind : ∀ i, nodes i → t'.kind? i = t.kind? i
  text : ∀ i, nodes i → t'.text? i = t.text? i
  children : ∀ i, nodes i → t'.children i = t.children i
  down : ∀ i, nodes i → ∀ c ∈ t.children i, nodes c

namespace AgreeOn

variable {t' : SourceTree} {nodes : Nat → Prop}

theorem descendants (h : AgreeOn t t' nodes) {id : Nat} (hid : nodes id) :
    t'.descendants id = t.descendants id ∧ ∀ d ∈ t.descendants id, nodes d := by
  induction id using descendants.induct t with
  | case1 id ih =>
    have hbelow := h.down id hid
    rw [descendants_eq, descendants_eq, h.children id hid]
    constructor
    · refine List.flatMap_congr fun c hc => ?_
      rw [(ih ⟨c, hc⟩ (hbelow c hc)).1]
    · intro d hd
      obtain ⟨c, hc, hd⟩ := List.mem_flatMap.1 hd
      rcases List.mem_cons.1 hd with rfl | hd
      · exact hbelow d hc
      · exact (ih ⟨c, hc⟩ (hbelow c hc)).2 d hd

theorem symbolsIn (h : AgreeOn t t' nodes) {id : Nat} (hid : nodes id) :
    t'.symbolsIn id = t.symbolsIn id ∧ ∀ s ∈ t.symbolsIn id, nodes s := by
  obtain ⟨hsame, hall⟩ := h.descendants hid
  have hmem : ∀ d ∈ id :: t.descendants id, nodes d := List.forall_mem_cons.2 ⟨hid, hall⟩
  constructor
  · rw [SourceTree.symbolsIn, SourceTree.symbolsIn, hsame]
    refine List.filter_congr fun d hd => ?_
    rw [decide_eq_decide, HasKind, HasKind, h.kind d (hmem d hd)]
  · exact fun s hs => hmem s (List.mem_filter.1 hs).1

theorem namesBoundBy (h : AgreeOn t t' nodes) {patterns : List Nat} (hp : ∀ p ∈ patterns, nodes p)
    (binding : Binding) (form : String) :
    t'.namesBoundBy patterns binding form = t.namesBoundBy patterns binding form := by
  have hsymbols : patterns.flatMap t'.symbolsIn = patterns.flatMap t.symbolsIn :=
    List.flatMap_congr fun p hmem => (h.symbolsIn (hp p hmem)).1
  rw [SourceTree.namesBoundBy, SourceTree.namesBoundBy, hsymbols]
  refine List.filterMap_congr fun s hs => ?_
  obtain ⟨p, hmem, hs⟩ := List.mem_flatMap.1 hs
  rw [h.text s ((h.symbolsIn (hp p hmem)).2 s hs)]

end AgreeOn

namespace Sound

theorem descendants_form (ht : t.Sound) {f : Nat} (hf : t.HasKind f .form) :
    t.descendants f = (f + 1) :: t.descendants (f + 1) := by
  simp [descendants_eq f, ht.single f hf]

theorem symbolsIn_collection (ht : t.Sound) {id : Nat} {c : Collection}
    (hk : t.HasKind id (.collection c)) :
    t.symbolsIn id = (t.elements id).flatMap t.symbolsIn := by
  have hnot : ¬ t.HasKind id (.token .symbol) := fun h => by cases h.unique hk
  rw [ht.elements_eq hk rfl, List.flatMap_map, symbolsIn, List.filter_cons_of_neg (by simpa using hnot),
    descendants_eq, List.filter_flatMap]
  refine List.flatMap_congr fun f hf => ?_
  have hform := (ht.wrapped f id ((ht.mem_children id f).1 hf)).2 ⟨_, hk, rfl⟩
  have hnot : ¬ t.HasKind f (.token .symbol) := fun h => by cases h.unique hform
  rw [List.filter_cons_of_neg (by simpa using hnot), ht.descendants_form hform, symbolsIn]

/-- The operator of a list is the first symbol in its first element. -/
theorem operator?_eq (ht : t.Sound) {list : Nat} (hk : t.HasKind list (.collection .list)) :
    t.operator? list =
      (t.elements list).head?.bind fun first => (t.symbolsIn first).head?.bind t.text? := by
  rw [operator?, if_pos hk, ht.elements_eq hk rfl, List.head?_map]
  cases hchildren : t.children list with
  | nil => simp [descendantOfKind?, descendants_eq list, hchildren]
  | cons f fs =>
    have hform : t.HasKind f .form :=
      (ht.wrapped f list ((ht.mem_children list f).1 (by simp [hchildren]))).2 ⟨_, hk, rfl⟩
    have hfirst : t.descendantOfKind? list .form = some f := by
      simp [descendantOfKind?, descendants_eq list, hchildren, hform]
    have hsymbol : t.descendantOfKind? f (.token .symbol) = (t.symbolsIn (f + 1)).head? := by
      rw [descendantOfKind?, ht.descendants_form hform, symbolsIn, List.head?_filter]
    simp [hfirst, hsymbol]

end Sound

end PhelAssist.SourceTree
