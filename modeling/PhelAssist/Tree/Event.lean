import PhelAssist.Datum
import PhelAssist.Tree.Basic

namespace PhelAssist

/-- What a parser reports while it goes through a text. A `finish` that is not `closed` ends a
collection whose closing delimiter is missing. -/
inductive Event where
  | start (kind : NodeKind) (offset : Nat)
  | token (kind : NodeKind) (text : String) (span : Span)
  | finish (stop : Nat) (closed : Bool)
  deriving DecidableEq, Repr

/-- Why events do not describe a tree. -/
inductive EventError where
  | unbalanced (count : Nat)
  | unmatchedFinish (offset : Nat)
  | notComposite (kind : NodeKind)
  | notToken (kind : NodeKind)
  | invertedRange (span : Span)
  deriving DecidableEq, Repr

def EventError.message : EventError → String
  | unbalanced count => s!"{count} node(s) were started but never finished"
  | unmatchedFinish offset => s!"finish_node at offset {offset} without a matching start_node"
  | notComposite kind => s!"{kind.name} cannot be used as a composite node"
  | notToken kind => s!"{kind.name} cannot be used as a token"
  | invertedRange span => s!"range {span.render} ends before it starts"

/-- A node that has been started, with the form that wraps it. -/
structure Pending where
  node : Nat
  wrapper : Option Nat
  start : Nat
  deriving DecidableEq, Repr

/-- A tree under construction, and its open nodes from the innermost outwards. -/
structure PartialTree where
  tree : SourceTree
  opened : List Pending
  opened_lt : ∀ o ∈ opened, o.node < tree.size

namespace PartialTree

def empty : PartialTree where
  tree := .blank
  opened := []
  opened_lt := by simp

/-- The node that gets the next child. -/
def innermost (b : PartialTree) : Nat :=
  match b.opened with
  | [] => SourceTree.root
  | o :: _ => o.node

theorem innermost_lt (b : PartialTree) : b.innermost < b.tree.size := by
  unfold innermost
  split
  · exact b.tree.nonempty
  · next o _ h => exact b.opened_lt o (by simp [h])

/-- Whether the next child is wrapped in a form. -/
def wraps (b : PartialTree) : Bool :=
  match b.tree.kind? b.innermost with
  | some kind => kind.holdsForms
  | none => false

/-- Adds a node below the innermost open one, inside a form of its own where the parent wants
that. -/
def grow (b : PartialTree) (kind : NodeKind) (span : Span) (text : Option String) :
    SourceTree × Pending :=
  if b.wraps then
    let wrapped := b.tree.append b.innermost b.innermost_lt .form span none
    (wrapped.append b.tree.size (by simp [wrapped]) kind span text,
      ⟨b.tree.size + 1, some b.tree.size, span.start⟩)
  else
    (b.tree.append b.innermost b.innermost_lt kind span text, ⟨b.tree.size, none, span.start⟩)

theorem lt_size_grow (b : PartialTree) (kind : NodeKind) (span : Span) (text : Option String) :
    b.tree.size < (b.grow kind span text).1.size ∧
      (b.grow kind span text).2.node < (b.grow kind span text).1.size := by
  unfold grow
  split
  · refine ⟨?_, by simp⟩
    simp only [SourceTree.size_append]
    omega
  · simp

def begin (b : PartialTree) (kind : NodeKind) (offset : Nat) : PartialTree where
  tree := (b.grow kind ⟨offset, offset⟩ none).1
  opened := (b.grow kind ⟨offset, offset⟩ none).2 :: b.opened
  opened_lt := by
    intro o ho
    have grows := b.lt_size_grow kind ⟨offset, offset⟩ none
    rcases List.mem_cons.1 ho with rfl | ho
    · exact grows.2
    · exact Nat.lt_trans (b.opened_lt o ho) grows.1

def addWord (b : PartialTree) (kind : NodeKind) (text : String) (span : Span) : PartialTree where
  tree := (b.grow kind span (some text)).1
  opened := b.opened
  opened_lt o ho := Nat.lt_trans (b.opened_lt o ho) (b.lt_size_grow ..).1

/-- Ends the innermost open node, which is `o`, and its form. -/
def endInnermost (b : PartialTree) (o : Pending) (stop : Nat) (closed : Bool) : PartialTree where
  tree := match o.wrapper with
    | some form => (b.tree.settle o.node stop closed).settle form stop true
    | none => b.tree.settle o.node stop closed
  opened := b.opened.tail
  opened_lt := by
    intro p hp
    have := b.opened_lt p (List.mem_of_mem_tail hp)
    split <;> simpa using this

/-- Takes one event. -/
def step (b : PartialTree) : Event → Except EventError PartialTree
  | .start kind offset =>
    if kind.isDelimited ∨ kind = .error then .ok (b.begin kind offset)
    else .error (.notComposite kind)
  | .token kind text span =>
    if kind.isWord ∨ kind = .error then
      if span.stop < span.start then .error (.invertedRange span)
      else .ok (b.addWord kind text span)
    else .error (.notToken kind)
  | .finish stop closed =>
    match b.opened with
    | [] => .error (.unmatchedFinish stop)
    | o :: _ =>
      if stop < o.start then .error (.invertedRange ⟨o.start, stop⟩)
      else .ok (b.endInnermost o stop closed)

/-- The tree, if no node is open. The file reaches to the last end of any node. -/
def finish (b : PartialTree) : Except EventError SourceTree :=
  match b.opened with
  | [] =>
    let stop := b.tree.nodes.foldl (fun stop n => max stop n.span.stop) 0
    .ok (b.tree.settle SourceTree.root stop true)
  | _ :: _ => .error (.unbalanced b.opened.length)

/-- What is left of an event that breaks a rule. It adds no node, but an end takes the innermost
open node with it even where it comes too early. -/
def passOver (b : PartialTree) : Event → PartialTree
  | .start .. | .token .. => b
  | .finish .. =>
    { b with
      opened := b.opened.tail
      opened_lt := fun o ho => b.opened_lt o (List.mem_of_mem_tail ho) }

end PartialTree

/-- A tree under construction, and the error of the first event that broke a rule. Events that come
after such an event are taken like any other. -/
structure Builder where
  progress : PartialTree
  error : Option EventError

namespace Builder

def fresh : Builder := ⟨.empty, none⟩

/-- Takes one event. An error that is there already stays. -/
def take (b : Builder) (e : Event) : Builder :=
  match b.progress.step e with
  | .ok next => { b with progress := next }
  | .error error => ⟨b.progress.passOver e, b.error.or (some error)⟩

/-- Any error comes before what `PartialTree.finish` has to say. -/
def finish (b : Builder) : Except EventError SourceTree :=
  match b.error with
  | some error => .error error
  | none => b.progress.finish

/-- The tree so far, as long as no event broke a rule. -/
def outcome (b : Builder) : Except EventError PartialTree :=
  match b.error with
  | some error => .error error
  | none => .ok b.progress

theorem finish_eq_bind (b : Builder) : b.finish = b.outcome.bind PartialTree.finish := by
  unfold finish outcome
  cases b.error with
  | none => rfl
  | some error => rfl

/-- With an error in its slot a builder comes to nothing else, whatever the event does to the tree;
without one the event decides. -/
theorem outcome_take (b : Builder) (e : Event) :
    (b.take e).outcome = b.outcome.bind (·.step e) := by
  obtain ⟨progress, error⟩ := b
  unfold take
  cases hstep : progress.step e with
  | ok next => cases error <;> simp [outcome, Except.bind, hstep]
  | error new => cases error <;> simp [outcome, Except.bind, hstep]

/-- Going on after an error comes to the same as stopping there. -/
theorem outcome_foldl (b : Builder) (events : List Event) :
    (events.foldl take b).outcome = b.outcome.bind fun p => events.foldlM PartialTree.step p := by
  induction events generalizing b with
  | nil => cases h : b.outcome <;> simp [h, Except.bind, pure, Except.pure]
  | cons e events ih =>
    rw [List.foldl_cons, ih, outcome_take]
    cases b.outcome with
    | error error => rfl
    | ok p => rfl

end Builder

/-- The tree that a list of events describes. The first event that breaks a rule decides the
error. -/
def SourceTree.ofEvents (events : List Event) : Except EventError SourceTree :=
  (events.foldl Builder.take .fresh).finish

theorem SourceTree.ofEvents_eq_bind (events : List Event) :
    ofEvents events = (events.foldlM PartialTree.step .empty).bind PartialTree.finish := by
  rw [ofEvents, Builder.finish_eq_bind, Builder.outcome_foldl]
  rfl

namespace Datum

mutual

/-- The events of a parser that meets this datum. -/
def events : Datum → List Event
  | token t span text => [.token (.token t) text span]
  | group c span closed items =>
    .start (.collection c) span.start :: eventsAll items ++ [.finish span.stop closed]

def eventsAll : List Datum → List Event
  | [] => []
  | d :: ds => events d ++ eventsAll ds

end

end Datum

/-- The tree of a file with the given top-level forms. -/
def SourceTree.ofData (forms : List Datum) : Except EventError SourceTree :=
  ofEvents (Datum.eventsAll forms)

end PhelAssist
