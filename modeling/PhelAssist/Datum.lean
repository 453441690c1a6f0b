import PhelAssist.Form
import PhelAssist.Span

namespace PhelAssist

/-- An expression as it stands in a source text. A collection that only the end of the text closes
is not `closed`; the text of a keyword starts with its colon. -/
inductive Datum where
  | token (kind : Token) (span : Span) (text : String)
  | group (collection : Collection) (span : Span) (closed : Bool) (items : List Datum)
  deriving Repr

namespace Datum

def span : Datum → Span
  | token _ s _ => s
  | group _ s _ _ => s

def kind : Datum → NodeKind
  | token t _ _ => .token t
  | group c _ _ _ => .collection c

def text? : Datum → Option String
  | token _ _ text => some text
  | group .. => none

def closed : Datum → Bool
  | token .. => true
  | group _ _ closed _ => closed

def items : Datum → List Datum
  | token .. => []
  | group _ _ _ items => items

mutual

/-- A datum and all below it in source order, each with its depth. -/
def outline (depth : Nat) : Datum → List (Nat × Datum)
  | token t s text => [(depth, token t s text)]
  | group c s closed items => (depth, group c s closed items) :: outlineAll (depth + 1) items

def outlineAll (depth : Nat) : List Datum → List (Nat × Datum)
  | [] => []
  | d :: ds => outline depth d ++ outlineAll depth ds

end

end Datum

end PhelAssist
