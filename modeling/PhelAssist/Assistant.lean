import PhelAssist.Completion.Item
import PhelAssist.Completion.Offer
import PhelAssist.Settings
import PhelAssist.Description

namespace PhelAssist

/-- What answers the requests of an editor. -/
structure Assistant where
  catalog : Catalog
  analyzer : Analyzer
  config : CompletionSettings

namespace Assistant

def lexical (catalog : Catalog) : Assistant := ⟨catalog, .lexical, {}⟩

variable (a : Assistant) (t : SourceTree)

/-- The completions for a cursor. An error becomes a single candidate that tells about it, or
nothing if that is not wanted. -/
def complete (c : Cursor) : Logged (List Candidate) :=
  let offered := Candidate.offer a.catalog a.analyzer a.config.localSymbols t c
  match offered.value with
  | .ok candidates => ⟨candidates, offered.log⟩
  | .error error =>
    ⟨if a.config.errorPlaceholders then [error.candidate] else [],
      offered.log ++ [⟨.warn, s!"completion failed at offset {c.offset}: {error.message}"⟩]⟩

/-- The completions at an offset. -/
def completionsAt (offset : Nat) : Logged (List Candidate) :=
  a.complete t (.ofOffset t offset)

/-- The completions at an offset in the shape that editors take. -/
def itemsAt (offset : Nat) : Logged (List Item) :=
  (a.completionsAt t offset).map fun candidates => candidates.mapIdx Item.ofCandidate

/-- Answers with nothing where the host broke off, and logs what it said. -/
def unlessAborted {α : Type} (request : String) (offset : Nat) :
    Except Abort (Option α) → Logged (Option α)
  | .ok answer => .quiet answer
  | .error abort =>
    ⟨none, [⟨.error, s!"{request} request panicked at offset {offset}: {abort.message}"⟩]⟩

def summaryAt (offset : Nat) : Option String :=
  (t.symbolAt? offset).bind (summary? a.catalog t)

def describeSymbol (symbol : Nat) : Except Abort (Option Description) :=
  describe a.catalog a.analyzer t symbol

def documentationAt (offset : Nat) : Logged (Option Description) :=
  unlessAborted "documentation" offset <|
    match t.symbolAt? offset with
    | none => .ok none
    | some symbol => a.describeSymbol t symbol

/-- Documentation with the range of the symbol, if the text of the file is given. -/
def hoverAt (offset : Nat) (text : Option String) : Logged (Option Hover) :=
  unlessAborted "hover" offset <|
    match t.symbolAt? offset with
    | none => .ok none
    | some symbol =>
      (a.describeSymbol t symbol).map fun d => d.map (Hover.ofDescription t symbol text)

def categoryAt (offset : Nat) : Logged (Option Category) :=
  unlessAborted "classification" offset <|
    match t.symbolAt? offset with
    | none => .ok none
    | some symbol => (categorize a.catalog a.analyzer t symbol).map some

end Assistant

end PhelAssist
