import PhelAssist.Datum.Reader

namespace PhelAssist

/-- A source text with the byte offset of its cursor, if one was marked. -/
structure MarkedSource where
  source : String
  cursor : Option Nat
  forms : List Datum
  deriving Repr

/-- A text whose cursor marker is being taken out. Inside a string a bar is no marker; comments do
not matter here, so a quote in a comment opens a string too. -/
structure Unmarking where
  source : String
  offset : Nat
  cursor : Option Nat
  quoted : Bool
  escaped : Bool
  deriving Repr

namespace Unmarking

def start : Unmarking := ⟨"", 0, none, false, false⟩

def keep (u : Unmarking) (c : Char) : Unmarking :=
  { u with source := u.source.push c, offset := u.offset + c.utf8Size }

def step (u : Unmarking) (c : Char) : Except ReadError Unmarking :=
  if u.quoted then
    if u.escaped then .ok { u.keep c with escaped := false }
    else .ok { u.keep c with escaped := c = '\\', quoted := c ≠ '"' }
  else if c = '|' then
    match u.cursor with
    | some _ => .error .secondCursor
    | none => .ok { u with cursor := some u.offset }
  else .ok { u.keep c with quoted := c = '"' }

end Unmarking

/-- Takes the cursor marker out of a text. -/
def unmark (marked : String) : Except ReadError (String × Option Nat) :=
  (marked.toList.foldlM Unmarking.step .start).map fun u => (u.source, u.cursor)

/-- Reads a text in which a single bar outside strings may mark the cursor. A second marker is
reported before anything else. -/
def readMarked (marked : String) : Except ReadError MarkedSource := do
  let (source, cursor) ← unmark marked
  return ⟨source, cursor, ← read source⟩

end PhelAssist
