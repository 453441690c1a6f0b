import PhelAssist.Scope.Visible

namespace PhelAssist

/-- A computation of a host that broke off, with what it said. -/
structure Abort where
  message : String
  deriving DecidableEq, Repr

/-- Why a host did not answer which names are in scope. -/
inductive LookupFailure where
  | refused (error : ScopeError)
  | aborted (abort : Abort)
  deriving DecidableEq, Repr

/-- What knows the binding structure of a tree. A host may bring its own, and any answer of it may
break off. -/
structure Analyzer where
  isDefinition : SourceTree → Nat → Except Abort Bool
  isParameter : SourceTree → Nat → Except Abort Bool
  isLetBinding : SourceTree → Nat → Except Abort Bool
  visibleAt : SourceTree → Nat → Nat → Except LookupFailure (List VisibleName)

/-- The analyzer that goes by the shape of binding forms alone. -/
def Analyzer.lexical : Analyzer where
  isDefinition t symbol := .ok (t.bindingPlace? symbol).isSome
  isParameter t symbol := .ok (t.bindingPlace? symbol = some .parameter)
  isLetBinding t symbol := .ok (t.bindingPlace? symbol = some .letBinding)
  visibleAt t element offset := (t.visibleAt element offset).mapError .refused

end PhelAssist
