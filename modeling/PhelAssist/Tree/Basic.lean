import PhelAssist.Kind
import PhelAssist.Span

namespace PhelAssist

/-- A node of a syntax tree. Tokens carry their text; a collection whose closing delimiter is
missing is not `closed`. Nodes are known by their numbers, in the order in which a parser meets
them. The numbers have no bound here; ids of 32 bits are the same ones in a tree of fewer than 2^32
nodes. -/
structure Node where
  kind : NodeKind
  span : Span
  text : Option String
  parent : Option Nat
  children : List Nat
  closed : Bool
  deriving DecidableEq, Repr

namespace Node

/-- Whether a cursor at `offset` belongs to a node. A token owns both its ends. A collection owns
what lies between its delimiters; while it is unclosed it owns its end as well, where the user is
still typing. -/
def Owns (n : Node) (offset : Nat) : Prop :=
  match n.kind with
  | .token _ | .error => n.span.Reaches offset
  | .collection _ =>
    n.span.Surrounds offset ∨ n.closed = false ∧ n.span.start < offset ∧ offset = n.span.stop
  | .file | .form => False

instance (n : Node) (offset : Nat) : Decidable (n.Owns offset) := by
  unfold Owns
  cases n.kind <;> infer_instance

/-- The node with one more child at the end. -/
def adopt (n : Node) (child : Nat) : Node := { n with children := n.children ++ [child] }

/-- The node with its end known. -/
def settle (n : Node) (stop : Nat) (closed : Bool) : Node :=
  { n with span := ⟨n.span.start, stop⟩, closed }

end Node

/-- Links run one way: a parent comes before its children. -/
def Ordered (nodes : Array Node) : Prop :=
  ∀ i node, nodes[i]? = some node →
    (∀ p, node.parent = some p → p < i) ∧ ∀ c ∈ node.children, i < c ∧ c < nodes.size

/-- The nodes of a file, each at the index that is its id. The file itself comes first. -/
structure SourceTree where
  nodes : Array Node
  nonempty : 0 < nodes.size
  ordered : Ordered nodes

namespace SourceTree

variable (t : SourceTree)

/-- The file is node 0. -/
def root : Nat := 0

/-- The name of a node in messages. -/
def renderId (id : Nat) : String := s!"#{id}"

def size : Nat := t.nodes.size

/-- Queries are total: about an id that is not in the tree they know nothing. -/
def node? (id : Nat) : Option Node := t.nodes[id]?

def Contains (id : Nat) : Prop := id < t.size

instance (id : Nat) : Decidable (t.Contains id) := inferInstanceAs (Decidable (_ < _))

def kind? (id : Nat) : Option NodeKind := (t.node? id).map (·.kind)

def span? (id : Nat) : Option Span := (t.node? id).map (·.span)

def text? (id : Nat) : Option String := (t.node? id).bind (·.text)

def parent? (id : Nat) : Option Nat := (t.node? id).bind (·.parent)

def children (id : Nat) : List Nat := ((t.node? id).map (·.children)).getD []

def HasKind (id : Nat) (kind : NodeKind) : Prop := t.kind? id = some kind

instance (id : Nat) (kind : NodeKind) : Decidable (t.HasKind id kind) :=
  inferInstanceAs (Decidable (_ = _))

def Owns (id : Nat) (offset : Nat) : Prop := ∃ n ∈ t.node? id, n.Owns offset

instance (id : Nat) (offset : Nat) : Decidable (t.Owns id offset) :=
  inferInstanceAs (Decidable (∃ n ∈ t.node? id, n.Owns offset))

variable {t}

theorem parent?_lt {id p : Nat} (h : t.parent? id = some p) : p < id := by
  obtain ⟨n, hn, hp⟩ := Option.bind_eq_some_iff.1 h
  exact (t.ordered id n hn).1 p hp

theorem lt_of_mem_children {id c : Nat} (h : c ∈ t.children id) : id < c ∧ c < t.size := by
  unfold children at h
  cases hn : t.node? id with
  | none => simp [hn] at h
  | some n => exact (t.ordered id n hn).2 c (by simpa [hn] using h)

theorem lt_size_of_node? {id : Nat} {n : Node} (h : t.node? id = some n) : id < t.size := by
  unfold node? at h
  exact (Array.getElem?_eq_some_iff.1 h).1

/-- A tree that holds nothing but an empty file. -/
def blank : SourceTree where
  nodes := #[⟨.file, ⟨0, 0⟩, none, none, [], true⟩]
  nonempty := by simp
  ordered := by
    intro i node h
    obtain ⟨hi, rfl⟩ := Array.getElem?_eq_some_iff.1 h
    simp only [List.size_toArray, List.length_cons, List.length_nil] at hi
    obtain rfl : i = 0 := by omega
    simp

@[simp] theorem size_blank : blank.size = 1 := rfl

/-- Adds a node as the last child of a node of the tree. -/
def append (t : SourceTree) (parent : Nat) (h : parent < t.size) (kind : NodeKind) (span : Span)
    (text : Option String) : SourceTree where
  nodes := (t.nodes.modify parent (·.adopt t.size)).push
    ⟨kind, span, text, some parent, [], true⟩
  nonempty := by simp
  ordered := by
    intro i node hi
    simp only [Array.getElem?_push, Array.size_modify, Array.getElem?_modify,
      Array.size_push] at hi ⊢
    split at hi
    · simp only [Option.some.injEq] at hi
      subst hi
      refine ⟨fun p hp => ?_, fun c hc => absurd hc (List.not_mem_nil)⟩
      obtain rfl : parent = p := Option.some.inj hp
      rename_i hsize
      exact hsize ▸ h
    · split at hi
      · obtain ⟨n, hn, rfl⟩ := Option.map_eq_some_iff.1 hi
        obtain ⟨hp, hc⟩ := t.ordered i n hn
        have hlt := (Array.getElem?_eq_some_iff.1 hn).1
        refine ⟨hp, fun c hmem => ?_⟩
        simp only [Node.adopt, List.mem_append, List.mem_singleton, size] at hmem
        rcases hmem with hmem | rfl
        · exact ⟨(hc c hmem).1, Nat.lt_succ_of_lt (hc c hmem).2⟩
        · omega
      · obtain ⟨hp, hc⟩ := t.ordered i node hi
        exact ⟨hp, fun c hmem => ⟨(hc c hmem).1, Nat.lt_succ_of_lt (hc c hmem).2⟩⟩

@[simp] theorem size_append (t : SourceTree) (parent : Nat) (h : parent < t.size)
    (kind : NodeKind) (span : Span) (text : Option String) :
    (t.append parent h kind span text).size = t.size + 1 := by
  simp [append, size]

/-- Sets the end of a node, and changes no link. -/
def settle (t : SourceTree) (id : Nat) (stop : Nat) (closed : Bool) : SourceTree where
  nodes := t.nodes.modify id (·.settle stop closed)
  nonempty := by simpa using t.nonempty
  ordered := by
    intro i node hi
    simp only [Array.getElem?_modify, Array.size_modify] at hi ⊢
    split at hi
    · obtain ⟨n, hn, rfl⟩ := Option.map_eq_some_iff.1 hi
      exact t.ordered i n hn
    · exact t.ordered i node hi

@[simp] theorem size_settle (t : SourceTree) (id : Nat) (stop : Nat) (closed : Bool) :
    (t.settle id stop closed).size = t.size := by
  simp [settle, size]

end SourceTree

end PhelAssist
