import PhelAssist.Completion.Candidate
import PhelAssist.Completion.Snippet

namespace PhelAssist

/-- The icon of a completion item. -/
inductive Icon where
  | snippet
  | variableName
  | function
  | record
  | reference
  | text
  deriving DecidableEq, Repr

/-- The number of an icon in the editor protocol. -/
def Icon.code : Icon → Nat
  | snippet => 15
  | variableName => 6
  | function => 3
  | record => 22
  | reference => 18
  | text => 1

def Origin.icon : Origin → Icon
  | starter => .snippet
  | .bound .parameter | .bound .letBinding => .variableName
  | .bound (.definition .function) | .bound (.definition .expander) => .function
  | .bound (.definition .value) => .variableName
  | .bound (.definition .record) => .record
  | .bound (.definition .generic) => .reference
  | library => .function
  | failure => .text

/-- Text that an editor inserts as it is, or reads as a snippet. -/
inductive Insertion where
  | plain (text : String)
  | snippet (text : String)
  deriving DecidableEq, Repr

/-- A completion in the shape that editors take. -/
structure Item where
  label : String
  icon : Icon
  detail : String
  labelDetail : Option String
  labelDescription : Option String
  documentation : Option String
  insertion : Option Insertion
  filterText : Option String
  sortText : String
  deriving DecidableEq, Repr

namespace Item

/-- A place in the list, with at least four digits, so that editors keep the order. -/
def sortKey (order : Nat) : String :=
  let digits := Nat.toDigits 10 order
  String.ofList (List.replicate (4 - digits.length) '0' ++ digits)

def insertionOf (t : Template) : Insertion :=
  if t.IsPlain then .plain t.text else .snippet t.snippet

def ofCandidate (order : Nat) (c : Candidate) : Item where
  label := c.label
  icon := c.origin.icon
  detail := c.typeText
  labelDetail := c.tailText
  labelDescription := c.ns
  documentation := c.documentation
  insertion := c.insert.map insertionOf
  filterText := if c.origin = .failure then some c.label else none
  sortText := sortKey order

end Item

end PhelAssist
