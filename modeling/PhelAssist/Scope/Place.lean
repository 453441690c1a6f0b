import PhelAssist.Scope.Category
import PhelAssist.Tree.Navigation

namespace PhelAssist.SourceTree

variable (t : SourceTree)

/-- The first vector among the elements after the operator. -/
def vectorAfterHead? (list : Nat) : Option Nat :=
  (t.elements list).tail.find? fun e => t.HasKind e (.collection .vector)

/-- Whether the operator of a list is one of the given words. -/
def OperatorIn (list : Nat) (words : List String) : Prop := ∃ op ∈ t.operator? list, op ∈ words

instance (list : Nat) (words : List String) : Decidable (t.OperatorIn list words) :=
  inferInstanceAs (Decidable (∃ op ∈ t.operator? list, op ∈ words))

/-- The parameter vector of a function form, or of one arity in a function of several: an arity is
a list that starts with its vector, inside a function form. -/
def parameters? (list : Nat) : Option Nat :=
  if t.OperatorIn list Words.function then t.vectorAfterHead? list
  else do
    let first ← (t.elements list).head?
    let outer ← t.container? list
    if t.HasKind first (.collection .vector) ∧ t.OperatorIn outer Words.function then some first
    else none

/-- What a vector says about the symbols in its element `current`: it decides whether they are
bound, or leaves that to what lies around it. -/
inductive Verdict where
  | decided (place : Option BindingPlace)
  | outward
  deriving DecidableEq, Repr

def vectorVerdict (vector current : Nat) : Verdict :=
  match t.container? vector with
  | none => .outward
  | some list =>
    if ¬ t.HasKind list (.collection .list) then .outward
    else if t.parameters? list = some vector then .decided (some .parameter)
    else if t.vectorAfterHead? list ≠ some vector then .outward
    else
      match t.elementAround? vector current with
      | none => .outward
      | some (index, _) =>
        if t.OperatorIn list Words.letLike then
          .decided (if index % 2 = 0 then some .letBinding else none)
        else if t.OperatorIn list Words.loopLike then
          .decided (if index + 1 < (t.elements vector).length then some .letBinding else none)
        else .outward

/-- Climbs from `current`, which is `symbol` or a pattern around it, to the form that binds it.
Vectors and maps may be patterns; a list ends the climb. -/
def placeFrom (symbol current : Nat) : Option BindingPlace :=
  match _h : t.container? current with
  | none => none
  | some container =>
    match t.kind? container with
    | some (.collection .list) =>
      if current = symbol ∧ (t.elementAround? container symbol).any (·.1 = 1) ∧
          t.OperatorIn container Words.definition then some .definitionName
      else none
    | some (.collection .vector) =>
      match t.vectorVerdict container current with
      | .decided place => place
      | .outward => placeFrom symbol container
    | some (.collection .map) => placeFrom symbol container
    | _ => none
termination_by current
decreasing_by all_goals exact container?_lt _h

/-- The place of a symbol, if it introduces a name there. -/
def bindingPlace? (symbol : Nat) : Option BindingPlace :=
  if t.HasKind symbol (.token .symbol) ∧ t.text? symbol ≠ some Words.restSign then
    t.placeFrom symbol symbol
  else none

end PhelAssist.SourceTree
