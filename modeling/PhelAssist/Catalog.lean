import PhelAssist.Log.Line

namespace PhelAssist

/-- A library function. `ns` is the namespace that it belongs to. -/
structure Entry where
  name : String
  ns : String
  signature : String
  description : String
  priority : Int
  deriving DecidableEq, Repr

/-- A name that an entry of one namespace lost to a later entry. -/
structure Takeover where
  name : String
  loser : String
  winner : String
  deriving DecidableEq, Repr

/-- Library functions in load order, with the tables that answer questions about them. `latest` has
the newest entry of a name in front of the older ones; `groups` lists the entries of each
namespace. -/
structure Catalog where
  entries : List Entry
  latest : List (String × Entry)
  groups : List (String × List Entry)
  takeovers : List Takeover
  deriving Repr

namespace Catalog

def empty : Catalog := ⟨[], [], [], []⟩

/-- Puts an entry at the end of the group of its namespace, opening one if there is none. -/
def addToGroup (e : Entry) : List (String × List Entry) → List (String × List Entry)
  | [] => [(e.ns, [e])]
  | (ns, es) :: rest => if ns = e.ns then (ns, es ++ [e]) :: rest else (ns, es) :: addToGroup e rest

/-- The record of a name that is taken over, if it is taken. -/
def takeover? (r : Catalog) (e : Entry) : Option Takeover :=
  (r.latest.lookup e.name).map fun earlier => ⟨e.name, earlier.ns, e.ns⟩

/-- Loads one more entry. A name belongs to the last entry that bears it. -/
def insert (r : Catalog) (e : Entry) : Catalog where
  entries := r.entries ++ [e]
  latest := (e.name, e) :: r.latest
  groups := addToGroup e r.groups
  takeovers := r.takeovers ++ (r.takeover? e).toList

def ofList (entries : List Entry) : Catalog := entries.foldl insert empty

variable (r : Catalog)

def size : Nat := r.entries.length

def get? (name : String) : Option Entry := r.latest.lookup name

def Contains (name : String) : Prop := (r.get? name).isSome

instance (name : String) : Decidable (r.Contains name) := inferInstanceAs (Decidable (_ = true))

/-- The functions of a namespace in load order. -/
def inNamespace (ns : String) : List Entry := (r.groups.lookup ns).getD []

/-- Namespaces in the order in which they first appear. -/
def namespaces : List String := r.groups.map (·.1)

/-- What loading the catalog logs: each name that changed hands, then the totals. -/
def loadLog : List LogLine :=
  r.takeovers.map (fun s =>
    ⟨.warn, s!"registry entry {s.winner}/{s.name} shadows earlier entry from namespace {s.loser}"⟩)
  ++ [⟨.info, s!"function registry loaded: {r.size} entries in {r.namespaces.length} namespaces " ++
    s!"({r.takeovers.length} shadowed)"⟩]

end Catalog

end PhelAssist
