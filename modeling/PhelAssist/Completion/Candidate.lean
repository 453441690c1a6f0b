import PhelAssist.Completion.Template
import PhelAssist.Scope.Visible

namespace PhelAssist

/-- Where a candidate comes from. A `failure` only reports that a request failed. -/
inductive Origin where
  | starter
  | bound (binding : Binding)
  | library
  | failure
  deriving DecidableEq, Repr

/-- A completion that is offered. `ns` is the namespace of a library function. -/
structure Candidate where
  label : String
  typeText : String
  tailText : Option String
  priority : Int
  origin : Origin
  ns : Option String
  documentation : Option String
  insert : Option Template
  deriving DecidableEq, Repr

namespace Candidate

/-- Label, type text and marked insertion text of the forms to start with. -/
def starterForms : List (String × String × String) := [
  ("()", "(...)", "($0)"),
  ("defn", "(defn name [args] body)", "(defn $\x7bname\x7d [$\x7bargs\x7d]\n  $\x7bbody\x7d)"),
  ("def", "(def name value)", "(def $\x7bname\x7d $\x7bvalue\x7d)"),
  ("let", "(let [bindings] body)", "(let [$\x7bbindings\x7d]\n  $\x7bbody\x7d)"),
  ("if", "(if condition then else)",
    "(if $\x7bcondition\x7d\n  $\x7bthen\x7d\n  $\x7belse\x7d)"),
  ("fn", "(fn [args] body)", "(fn [$\x7bargs\x7d] $\x7bbody\x7d)")]

/-- What is offered where a new form starts. -/
def starters : List Candidate :=
  starterForms.mapIdx fun i (label, typeText, marked) =>
    ⟨label, typeText, none, (starterForms.length : Int) - i, .starter, none, none,
      some (.ofMarked marked)⟩

/-- Locals come before anything else. -/
def boundPriority : Int := 1000

/-- Tells a local from a library function of the same name. -/
def boundTail : String := " (local)"

/-- A hint at how a local was bound. -/
def boundType (s : VisibleName) : String :=
  match s.binding with
  | .parameter => "parameter"
  | .letBinding =>
    if s.form = "let" ∨ s.form = "" then "let binding" else s.form
  | .definition _ => s.form

def ofVisible (s : VisibleName) : Candidate :=
  ⟨s.name, boundType s, some boundTail, boundPriority, .bound s.binding, none, none, none⟩

end Candidate

end PhelAssist
