import PhelAssist.Catalog
import PhelAssist.Scope.Analyzer

namespace PhelAssist

/-- The category of a symbol in a place where it introduces a name. -/
def definingCategory? (analyzer : Analyzer) (t : SourceTree) (symbol : Nat) :
    Except Abort (Option Category) := do
  if ← analyzer.isDefinition t symbol then
    if ← analyzer.isParameter t symbol then return some .parameter
    if ← analyzer.isLetBinding t symbol then return some .letBinding
    return some (.definition (.ofOperator ((t.enclosingList? symbol).bind t.operator?)))
  return none

/-- The category of a name that is only used. -/
def usedCategory (catalog : Catalog) (name : String) : Category :=
  if catalog.Contains name then .library (.ofName name)
  else if name ∈ Words.special then .specialForm
  else .unknown

/-- What a symbol is: first by the place it stands in, then by its name. -/
def categorize (catalog : Catalog) (analyzer : Analyzer) (t : SourceTree) (symbol : Nat) :
    Except Abort Category :=
  match t.kind? symbol, t.text? symbol with
  | some (.token .symbol), some name => do
    return (← definingCategory? analyzer t symbol).getD (usedCategory catalog name)
  | _, _ => .ok .unknown

end PhelAssist
