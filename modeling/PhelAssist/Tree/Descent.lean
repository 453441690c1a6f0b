import PhelAssist.Tree.Navigation

namespace PhelAssist.SourceTree

variable (t : SourceTree)

/-- The element of a node to which a cursor belongs. Where a token and a collection meet, the token
wins, since it may still be typed. -/
def owner? (id offset : Nat) : Option Nat :=
  let owners := (t.elements id).filter fun e => t.Owns e offset
  (owners.find? fun e => (t.kind? e).any (·.isWord)).or owners.head?

theorem owner?_mem {t : SourceTree} {id offset e : Nat} (h : t.owner? id offset = some e) :
    e ∈ t.elements id ∧ t.Owns e offset := by
  have hmem : e ∈ (t.elements id).filter fun e => t.Owns e offset := by
    rcases Option.or_eq_some_iff.1 h with h | ⟨_, h⟩
    · exact List.mem_of_find?_eq_some h
    · exact List.mem_of_head? h
  simpa using hmem

/-- Goes down from a node as long as an element of it owns the cursor. -/
def descend (id offset : Nat) : Nat :=
  match _h : t.owner? id offset with
  | none => id
  | some e => descend e offset
termination_by t.size - id
decreasing_by
  have := lt_of_mem_elements (owner?_mem _h).1
  omega

/-- The innermost node at a cursor; the file, if nothing more specific owns it. -/
def nodeAt (offset : Nat) : Nat := t.descend root offset

/-- The symbol at a cursor. -/
def symbolAt? (offset : Nat) : Option Nat :=
  let id := t.nodeAt offset
  if t.HasKind id (.token .symbol) then some id else t.ancestorOfKind? id (.token .symbol)

end PhelAssist.SourceTree
