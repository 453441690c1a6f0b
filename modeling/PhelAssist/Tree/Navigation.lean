import PhelAssist.Tree.Basic

namespace PhelAssist.SourceTree

variable (t : SourceTree)

/-- The nodes above a node, innermost first. -/
def ancestors (id : Nat) : List Nat :=
  match _h : t.parent? id with
  | none => []
  | some p => p :: ancestors p
termination_by id
decreasing_by exact parent?_lt _h

/-- The nodes below a node, in source order. -/
def descendants (id : Nat) : List Nat :=
  (t.children id).attach.flatMap fun c => c.1 :: descendants c.1
termination_by t.size - id
decreasing_by
  have := lt_of_mem_children c.2
  omega

variable {t}

theorem ancestors_eq_nil {id : Nat} (h : t.parent? id = none) : t.ancestors id = [] := by
  rw [ancestors]
  split
  · rfl
  · next p hp => simp [h] at hp

theorem ancestors_eq_cons {id p : Nat} (h : t.parent? id = some p) :
    t.ancestors id = p :: t.ancestors p := by
  rw [ancestors]
  split
  · next hp => simp [h] at hp
  · next q hq =>
    obtain rfl : p = q := by simpa [h] using hq
    rfl

theorem descendants_eq (id : Nat) :
    t.descendants id = (t.children id).flatMap fun c => c :: t.descendants c := by
  rw [descendants]
  simp [List.flatMap_subtype (g := fun c => c :: t.descendants c)]

theorem lt_of_mem_ancestors {id a : Nat} (h : a ∈ t.ancestors id) : a < id := by
  induction id using Nat.strongRecOn generalizing a with
  | _ id ih =>
    cases hp : t.parent? id with
    | none => simp [ancestors_eq_nil hp] at h
    | some p =>
      have hlt := parent?_lt hp
      rw [ancestors_eq_cons hp] at h
      rcases List.mem_cons.1 h with rfl | h
      · exact hlt
      · exact Nat.lt_trans (ih p hlt h) hlt

variable (t)

/-- The nearest node of a kind above a node. -/
def ancestorOfKind? (id : Nat) (kind : NodeKind) : Option Nat :=
  (t.ancestors id).find? fun a => t.HasKind a kind

/-- The first child of a kind. -/
def childOfKind? (id : Nat) (kind : NodeKind) : Option Nat :=
  (t.children id).find? fun c => t.HasKind c kind

/-- The first node of a kind below a node, in source order. -/
def descendantOfKind? (id : Nat) (kind : NodeKind) : Option Nat :=
  (t.descendants id).find? fun d => t.HasKind d kind

def enclosingList? (id : Nat) : Option Nat := t.ancestorOfKind? id (.collection .list)

/-- The node that a form wraps; any other node is itself. -/
def unwrap (id : Nat) : Nat :=
  if t.HasKind id .form then (t.children id).head?.getD id else id

/-- The elements of a file or collection, without their forms. -/
def elements (id : Nat) : List Nat := (t.children id).map t.unwrap

/-- The file or collection that a node is an element of. -/
def container? (id : Nat) : Option Nat := do
  let form ← t.parent? id
  if t.HasKind form .form then t.parent? form else none

/-- The text of the first symbol inside the first form of a list. It may stand in a nested
collection. -/
def operator? (list : Nat) : Option String :=
  if t.HasKind list (.collection .list) then do
    let first ← t.descendantOfKind? list .form
    let symbol ← t.descendantOfKind? first (.token .symbol)
    t.text? symbol
  else none

/-- The child of `container` that is a node or lies above it. -/
def childToward? (container id : Nat) : Option Nat :=
  match _h : t.parent? id with
  | none => none
  | some p => if p = container then some id else childToward? container p
termination_by id
decreasing_by exact parent?_lt _h

/-- The element of `container` that a node below it belongs to, with the element's index. -/
def elementAround? (container id : Nat) : Option (Nat × Nat) := do
  let child ← t.childToward? container id
  let element := t.unwrap child
  let index ← (t.elements container).idxOf? element
  return (index, element)

/-- A node is within itself and within all that lies above it. -/
def IsWithin (id container : Nat) : Prop := id = container ∨ container ∈ t.ancestors id

instance (id container : Nat) : Decidable (t.IsWithin id container) :=
  inferInstanceAs (Decidable (_ ∨ _))

/-- The symbols at or below a node, in source order. -/
def symbolsIn (id : Nat) : List Nat :=
  (id :: t.descendants id).filter fun d => t.HasKind d (.token .symbol)

variable {t}

theorem container?_lt {id c : Nat} (h : t.container? id = some c) : c < id := by
  obtain ⟨form, hform, h⟩ := Option.bind_eq_some_iff.1 h
  split at h
  · exact Nat.lt_trans (parent?_lt h) (parent?_lt hform)
  · simp at h

theorem unwrap_eq_or_mem (id : Nat) : t.unwrap id = id ∨ t.unwrap id ∈ t.children id := by
  unfold unwrap
  split
  · cases h : t.children id with
    | nil => simp
    | cons c cs => simp
  · exact .inl rfl

theorem lt_of_mem_elements {id e : Nat} (h : e ∈ t.elements id) : id < e ∧ e < t.size := by
  obtain ⟨c, hc, rfl⟩ := List.mem_map.1 h
  have hlt := lt_of_mem_children hc
  rcases unwrap_eq_or_mem (t := t) c with he | he
  · rwa [he]
  · have := lt_of_mem_children he
    omega

end PhelAssist.SourceTree
