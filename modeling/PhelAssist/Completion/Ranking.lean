import PhelAssist.Completion.Candidate
import PhelAssist.Catalog

namespace PhelAssist

namespace Candidate

/-- The namespaces that are offered, in this order. -/
def offeredNamespaces : List String :=
  ["core", "str", "json", "html", "http", "base64", "test", "php", "repl"]

def offeredRank? (ns : String) : Option Nat := offeredNamespaces.idxOf? ns

def rank? (c : Candidate) : Option Nat := c.ns.bind offeredRank?

/-- What tells library candidates apart. -/
def key (c : Candidate) : Option String × String := (c.ns, c.label)

/-- The first candidate of each key that is not taken yet. -/
def firstOfEach (taken : List (Option String × String)) : List Candidate → List Candidate
  | [] => []
  | c :: rest =>
    if c.key ∈ taken then firstOfEach taken rest else c :: firstOfEach (c.key :: taken) rest

/-- Namespaces in their order, inside a namespace the higher priority first, then by label. -/
def RankedBefore (a b : Candidate) : Prop :=
  let ra := a.rank?.getD 0
  let rb := b.rank?.getD 0
  ra < rb ∨ ra = rb ∧
    (b.priority < a.priority ∨ a.priority = b.priority ∧ a.label ≤ b.label)

instance (a b : Candidate) : Decidable (a.RankedBefore b) := inferInstanceAs (Decidable (_ ∨ _))

/-- Sorts library candidates. Those of no known namespace are dropped, and of candidates with the
same namespace and label the first is kept. -/
def rank (candidates : List Candidate) : List Candidate :=
  (firstOfEach [] (candidates.filter (·.rank?.isSome))).mergeSort fun a b => a.RankedBefore b

def ofEntry (e : Entry) : Candidate :=
  ⟨e.name, e.signature, none, e.priority, .library, some e.ns, some e.description, none⟩

/-- What a catalog has to offer. -/
def ofCatalog (r : Catalog) : List Candidate :=
  rank ((offeredNamespaces.flatMap r.inNamespace).map ofEntry)

end Candidate

end PhelAssist
