import PhelAssist.Completion.Candidate
import PhelAssist.Tree.Descent

namespace PhelAssist

/-- Why no completion can be offered. -/
inductive OfferError where
  | danglingNode (node : Nat) (context : String)
  | malformedTree (detail : String)
  | unexpectedKind (expected : String) (found : NodeKind)
  | invalidContext (detail : String)
  | internal (detail : String)
  deriving DecidableEq, Repr

namespace OfferError

def message : OfferError → String
  | danglingNode node context =>
    s!"node {SourceTree.renderId node} is missing from the syntax tree ({context})"
  | malformedTree detail => s!"malformed syntax: {detail}"
  | unexpectedKind expected found => s!"expected {expected} node, found {found.name}"
  | invalidContext detail => s!"invalid completion context: {detail}"
  | internal detail => detail

def label : OfferError → String
  | danglingNode .. => "⚠️ Syntax tree issue"
  | malformedTree _ => "⚠️ Malformed syntax"
  | unexpectedKind .. => "⚠️ Type mismatch"
  | invalidContext _ | internal _ => "❌ Completion error"

def tail : OfferError → String
  | danglingNode _ context =>
    s!" - Completion failed due to a missing syntax node in {context}"
  | malformedTree _ => " - Completion failed due to unexpected syntax structure"
  | unexpectedKind .. => " - Completion failed due to unexpected syntax node type"
  | e => s!" - Unexpected error: {e.message}"

/-- A candidate that only tells what went wrong. Choosing it inserts nothing. -/
def candidate (e : OfferError) : Candidate :=
  ⟨e.label, "", some e.tail, 0, .failure, none, none, some (.ofText "")⟩

end OfferError

/-- What can be completed: a new form, or an expression inside one. -/
inductive Situation where
  | newForm
  | insideForm
  deriving DecidableEq, Repr

/-- Where a cursor stands. `startsForm` says that no collection encloses it, `insideList` that a
list does. -/
structure Cursor where
  element : Nat
  offset : Nat
  startsForm : Bool
  insideList : Bool
  deriving DecidableEq, Repr

namespace SourceTree

variable (t : SourceTree)

/-- Whether a node is, or lies below, a node of some kind. -/
def EnclosedBy (element : Nat) (wanted : NodeKind → Bool) : Prop :=
  ∃ id ∈ element :: t.ancestors element, (t.kind? id).any wanted

instance (element : Nat) (wanted : NodeKind → Bool) : Decidable (t.EnclosedBy element wanted) :=
  inferInstanceAs (Decidable (∃ id ∈ element :: t.ancestors element, (t.kind? id).any wanted))

def startsForm (element : Nat) : Bool := ¬ t.EnclosedBy element NodeKind.isDelimited

def insideList (element : Nat) : Bool := t.EnclosedBy element (· = .collection .list)

end SourceTree

namespace Cursor

/-- The cursor at an offset of a tree. -/
def ofOffset (t : SourceTree) (offset : Nat) : Cursor :=
  let element := t.nodeAt offset
  ⟨element, offset, t.startsForm element, t.insideList element⟩

/-- What is to be completed here. -/
def situation (c : Cursor) : Situation := if c.startsForm then .newForm else .insideForm

/-- The first collection above a node that does not reach around it. -/
def overrun? (t : SourceTree) (id : Nat) (span : Span) : Option Node :=
  (t.ancestors id).filterMap t.node?
    |>.find? fun outer => outer.kind.isDelimited ∧ ¬ outer.span.Covers span

/-- Checks a cursor against the tree it is used with. A cursor from outside, or one that an edit
has made stale, need not fit. -/
def check (c : Cursor) (t : SourceTree) : Except OfferError Unit :=
  match t.node? c.element with
  | none => .error (.danglingNode c.element "cursor context")
  | some node =>
    if node.kind = .form then .error (.unexpectedKind "token or collection" .form)
    else if node.kind ≠ .file ∧ ¬ node.span.Reaches c.offset then
      .error (.invalidContext
        s!"offset {c.offset} lies outside {node.kind.name} {node.span.render}")
    else if (t.startsForm c.element, t.insideList c.element) ≠ (c.startsForm, c.insideList) then
      .error (.invalidContext
        s!"enclosure flags disagree with the tree at {SourceTree.renderId c.element}")
    else
      match overrun? t c.element node.span with
      | some outer => .error (.malformedTree (
          s!"{node.kind.name} at {node.span.render} extends beyond its enclosing " ++
          s!"{outer.kind.name} at {outer.span.render}"))
      | none => .ok ()

end Cursor

end PhelAssist
