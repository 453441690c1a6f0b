import PhelAssist.Scope.Place

namespace PhelAssist

/-- Why names in scope cannot be found. -/
inductive ScopeError where
  | unknownNode (id : Nat)
  | resolver (reason : String)
  deriving DecidableEq, Repr

def ScopeError.message : ScopeError → String
  | unknownNode id => s!"node {SourceTree.renderId id} is not part of the syntax tree"
  | resolver reason => s!"scope resolver failed: {reason}"

/-- A name that is visible at a cursor. `form` is the operator of the form that introduced it,
`node` the symbol there. -/
structure VisibleName where
  name : String
  binding : Binding
  form : String
  node : Nat
  deriving DecidableEq, Repr

namespace VisibleName

/-- Names that have been seen, and symbols that were accepted. -/
structure Scan where
  seen : List String
  accepted : List VisibleName

namespace Scan

/-- Accepts a symbol whose name is new. -/
def meet (scan : Scan) (s : VisibleName) : Scan :=
  if s.name ∈ scan.seen then scan else ⟨s.name :: scan.seen, scan.accepted ++ [s]⟩

/-- Goes through a group from its end, and puts what is accepted of it back in order. -/
def join (scan : Scan) (group : List VisibleName) : Scan :=
  let inGroup := group.reverse.foldl meet ⟨scan.seen, []⟩
  ⟨inGroup.seen, scan.accepted ++ inGroup.accepted.reverse⟩

end Scan

/-- Joins groups of bindings, the innermost first. Inside a group a later binding hides an earlier
one of its name; an inner group hides an outer one. -/
def mergeScopes (groups : List (List VisibleName)) : List VisibleName :=
  (groups.foldl Scan.join ⟨[], []⟩).accepted

end VisibleName

namespace SourceTree

variable (t : SourceTree)

/-- Whether a node ends at or before an offset. -/
def EndsBy (id offset : Nat) : Prop := ∃ s ∈ t.span? id, s.stop ≤ offset

instance (id offset : Nat) : Decidable (t.EndsBy id offset) :=
  inferInstanceAs (Decidable (∃ s ∈ t.span? id, s.stop ≤ offset))

/-- The bindings that patterns introduce: all symbols in them but the rest sign. -/
def namesBoundBy (patterns : List Nat) (binding : Binding) (form : String) : List VisibleName :=
  (patterns.flatMap t.symbolsIn).filterMap fun symbol =>
    match t.text? symbol with
    | some name => if name = Words.restSign then none else some ⟨name, binding, form, symbol⟩
    | none => none

/-- The function word that an arity belongs to. -/
def arityOperator (list : Nat) : String :=
  if t.OperatorIn list Words.function then (t.operator? list).getD ""
  else ((t.container? list).bind t.operator?).getD ""

/-- How many leading pairs of a vector have a value that ends by an offset. -/
def completePairs (offset : Nat) : List Nat → Nat
  | _ :: value :: rest => if t.EndsBy value offset then completePairs offset rest + 1 else 0
  | _ => 0

/-- The elements at even places. -/
def evenPlaced {α : Type} : List α → List α
  | a :: _ :: rest => a :: evenPlaced rest
  | [a] => [a]
  | [] => []

/-- How many pairs of a binding vector are in scope. Inside a pattern or value these are the pairs
before its own, between elements the pairs that are complete, and after the vector all of them. -/
def visiblePairs (bindings element offset : Nat) : Nat :=
  let elements := t.elements bindings
  if t.IsWithin element bindings then
    match t.elementAround? bindings element with
    | some (index, _) => index / 2
    | none => t.completePairs offset elements
  else if t.EndsBy bindings offset then (elements.length + 1) / 2
  else 0

def pairBindings (bindings element offset : Nat) (form : String) : List VisibleName :=
  t.namesBoundBy ((evenPlaced (t.elements bindings)).take (t.visiblePairs bindings element offset))
    .letBinding form

/-- Whether a binding vector as a whole lies behind the cursor. -/
def IsBehind (vector element offset : Nat) : Prop :=
  ¬ t.IsWithin element vector ∧ t.EndsBy vector offset

instance (vector element offset : Nat) : Decidable (t.IsBehind vector element offset) :=
  inferInstanceAs (Decidable (_ ∧ _))

/-- What a list around the cursor brings into scope. -/
def scopeBindings (element offset scope : Nat) : List VisibleName :=
  if ¬ t.HasKind scope (.collection .list) then []
  else
    match t.parameters? scope with
    | some params =>
      if t.IsBehind params element offset then
        t.namesBoundBy [params] .parameter (t.arityOperator scope)
      else []
    | none =>
      match t.vectorAfterHead? scope with
      | none => []
      | some bindings =>
        let operator := (t.operator? scope).getD ""
        if operator ∈ Words.letLike then t.pairBindings bindings element offset operator
        else if operator ∈ Words.loopLike ∧ t.IsBehind bindings element offset then
          t.namesBoundBy (t.elements bindings).dropLast .letBinding operator
        else []

/-- The name that a top-level form defines, unless the cursor is on it. -/
def definition? (element form : Nat) : Option VisibleName := do
  let operator ← t.operator? form
  let symbol ← (t.elements form)[1]?
  let name ← t.text? symbol
  if operator ∈ Words.definition ∧ symbol ≠ element ∧ t.HasKind symbol (.token .symbol) then
    some ⟨name, .definition (.ofOperator (some operator)), operator, symbol⟩
  else none

/-- Top-level definitions that start before the cursor. -/
def fileDefinitions (element offset : Nat) : List VisibleName :=
  ((t.elements root).filter fun e => (t.span? e).any (·.start < offset)).filterMap
    (t.definition? element)

/-- The names visible at an offset, innermost first, each once. `element` is the innermost node at
the cursor. -/
def visibleAt (element offset : Nat) : Except ScopeError (List VisibleName) :=
  if t.Contains element then
    .ok (VisibleName.mergeScopes
      ((element :: t.ancestors element).map (t.scopeBindings element offset) ++
        [t.fileDefinitions element offset]))
  else .error (.unknownNode element)

end SourceTree

end PhelAssist
