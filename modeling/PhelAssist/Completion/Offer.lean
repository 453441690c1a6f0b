import PhelAssist.Completion.Cursor
import PhelAssist.Completion.Ranking
import PhelAssist.Scope.Analyzer

namespace PhelAssist

namespace Candidate

/-- The first symbol of each name that is not taken yet. -/
def firstOfName (taken : List String) : List VisibleName → List VisibleName
  | [] => []
  | s :: rest =>
    if s.name ∈ taken then firstOfName taken rest else s :: firstOfName (s.name :: taken) rest

/-- The locals that an analyzer sees. If it fails, there are none, and the log says why. -/
def locals (analyzer : Analyzer) (t : SourceTree) (c : Cursor) :
    Logged (List Candidate) :=
  match analyzer.visibleAt t c.element c.offset with
  | .ok symbols => .quiet ((firstOfName [] symbols).map ofVisible)
  | .error (.refused e) =>
    ⟨[], [⟨.warn, s!"local symbol lookup failed at {c.offset}, " ++
      s!"continuing without locals: {e.message}"⟩]⟩
  | .error (.aborted a) =>
    ⟨[], [⟨.warn, s!"local symbol lookup panicked at {c.offset}, " ++
      s!"continuing without locals: {a.message}"⟩]⟩

/-- The completions for a cursor: forms to start with where nothing encloses it, else
locals and then what the catalog has. -/
def offer (catalog : Catalog) (analyzer : Analyzer) (withLocals : Bool) (t : SourceTree)
    (c : Cursor) : Logged (Except OfferError (List Candidate)) :=
  match c.check t with
  | .error e => .quiet (.error e)
  | .ok () =>
    match c.situation with
    | .newForm => .quiet (.ok starters)
    | .insideForm =>
      let found := if withLocals then locals analyzer t c else .quiet []
      found.map fun locals => .ok (locals ++ ofCatalog catalog)

end Candidate

end PhelAssist
