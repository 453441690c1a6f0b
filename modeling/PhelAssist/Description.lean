import PhelAssist.Scope.Categorize
import PhelAssist.Text.Lines

namespace PhelAssist

/-- What is known about a symbol. Only what no library entry backs has a category. -/
@[ext] structure Description where
  title : String
  signature : String
  body : String
  category : Option Category
  deriving DecidableEq, Repr

namespace Description

def ofEntry (e : Entry) : Description := ⟨e.name, e.signature, e.description, none⟩

/-- What is said about a name that no library entry describes. -/
def undocumented (name : String) (category : Category) : Description :=
  ⟨name, name, "Documentation not available for this symbol.", some category⟩

/-- Characters that could open or close a tag or an attribute are written as entities. -/
def escapeChar (c : Char) : List Char :=
  if c = '&' then "&amp;".toList
  else if c = '<' then "&lt;".toList
  else if c = '>' then "&gt;".toList
  else if c = '"' then "&quot;".toList
  else if c = '\'' then "&#39;".toList
  else [c]

def escape (s : String) : String := String.ofList (s.toList.flatMap escapeChar)

def categoryHtml : Option Category → String
  | none => ""
  | some c => "<p><b>Type:</b> " ++ escape c.label ++ "</p>"

/-- The description as a page for a documentation popup. -/
def html (d : Description) : String :=
  "<html><body><h3>" ++ escape d.title ++ "</h3>" ++ categoryHtml d.category ++
    "<p><b>Signature:</b> <code>" ++ escape d.signature ++ "</code></p><p>" ++ escape d.body ++
    "</p></body></html>"

def categoryMarkdown : Option Category → String
  | none => ""
  | some c => "*" ++ c.label ++ "*\n\n"

def markdown (d : Description) : String :=
  "### " ++ d.title ++ "\n\n" ++ categoryMarkdown d.category ++
    "```phel\n" ++ d.signature ++ "\n```\n\n" ++ d.body

end Description

/-- The text of a symbol that has one. -/
def SourceTree.symbolText? (t : SourceTree) (symbol : Nat) : Option String :=
  if t.HasKind symbol (.token .symbol) then (t.text? symbol).filter (· ≠ "") else none

/-- Documentation of a symbol. A library entry of that name comes first, wherever the symbol
stands. -/
def describe (catalog : Catalog) (analyzer : Analyzer) (t : SourceTree) (symbol : Nat) :
    Except Abort (Option Description) :=
  match t.symbolText? symbol with
  | none => .ok none
  | some name =>
    match catalog.get? name with
    | some entry => .ok (some (.ofEntry entry))
    | none => (categorize catalog analyzer t symbol).map fun c => some (.undocumented name c)

/-- Name and signature of a library function on one line. -/
def summary? (catalog : Catalog) (t : SourceTree) (symbol : Nat) : Option String := do
  let name ← t.symbolText? symbol
  let entry ← catalog.get? name
  return name ++ " " ++ entry.signature

/-- Documentation to show at the cursor, with the range of the symbol if the text is at hand. -/
structure Hover where
  contents : String
  range : Option (Position × Position)
  deriving DecidableEq, Repr

def Hover.ofDescription (t : SourceTree) (symbol : Nat) (text : Option String) (d : Description) : Hover :=
  ⟨d.markdown, do Text.rangeOf? (← text).toList (← t.span? symbol)⟩

end PhelAssist
