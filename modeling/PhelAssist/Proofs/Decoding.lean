import PhelAssist.Proofs.Feeding
import PhelAssist.Proofs.Replay

namespace PhelAssist

open Datum (eventsAll)

namespace SourceTree

/-- The datum that a node stands for, unless an error is part of it. -/
def datum? (t : SourceTree) (id : Nat) : Option Datum :=
  match t.node? id with
  | none => none
  | some n =>
    match n.kind, n.text with
    | .token k, some text => some (.token k n.span text)
    | .collection c, none =>
      ((t.elements id).attach.mapM fun e => t.datum? e.1).map (.group c n.span n.closed)
    | _, _ => none
termination_by t.size - id
decreasing_by
  have := lt_of_mem_elements e.2
  omega

/-- The top-level forms of a tree. -/
def data? (t : SourceTree) : Option (List Datum) := (t.elements root).mapM t.datum?

variable {t : SourceTree}

theorem datum?_of_token {id : Nat} {n : Node} {k : Token} {text : String}
    (hn : t.node? id = some n) (hkind : n.kind = .token k) (htext : n.text = some text) :
    t.datum? id = some (.token k n.span text) := by
  rw [datum?]
  simp [hn, hkind, htext]

theorem datum?_of_collection {id : Nat} {n : Node} {c : Collection}
    (hn : t.node? id = some n) (hkind : n.kind = .collection c) (htext : n.text = none) :
    t.datum? id = ((t.elements id).mapM t.datum?).map (.group c n.span n.closed) := by
  rw [datum?]
  simp [hn, hkind, htext, List.mapM_subtype (g := t.datum?)]

theorem Sound.flatMap_eventsAt_children (ht : t.Sound) {p : Nat} {k : NodeKind}
    (hp : t.kind? p = some k) (hk : k.holdsForms = true) :
    (t.children p).flatMap t.eventsAt = (t.elements p).flatMap t.eventsAt := by
  rw [elements, List.flatMap_map]
  apply List.flatMap_congr
  intro f hf
  have hform : t.HasKind f .form :=
    (ht.wrapped f p ((ht.mem_children p f).1 hf)).2 ⟨k, hp, hk⟩
  rw [ht.unwrap_form hform]
  exact Holds.eventsAt (.inr ⟨hform, ht.single f hform⟩)

theorem Sound.not_form_of_mem_elements (ht : t.Sound) {p e : Nat} {k : NodeKind}
    (hp : t.kind? p = some k) (hk : k.holdsForms = true) (he : e ∈ t.elements p) :
    ¬ t.HasKind e .form :=
  ht.not_form_of_container? ((ht.mem_elements_iff hp hk).1 he)

end SourceTree

/-- Events that are over, or come to the end of a node. -/
def Event.Ending (events : List Event) : Prop := ∀ e ∈ events.head?, e.isFinish = true

theorem Datum.not_ending_events (d : Datum) (rest : List Event) :
    ¬ Event.Ending (d.events ++ rest) := by
  cases d with
  | token k span text => simp [Event.Ending, events_token, Event.isFinish]
  | group c span closed items => simp [Event.Ending, events_group, Event.isFinish]

namespace SourceTree

variable {t : SourceTree}

/-- The first event of a node says what the node is: a word, or one that others stand in. -/
theorem eventsAt_cases {id : Nat} (hid : id < t.size) (hform : ¬ t.HasKind id .form) :
    ∃ n, t.node? id = some n ∧
      ((∃ text, n.text = some text ∧ t.eventsAt id = [.token n.kind text n.span]) ∨
        n.text = none ∧ t.eventsAt id = .start n.kind n.span.start ::
          ((t.children id).flatMap t.eventsAt ++ [.finish n.span.stop n.closed])) := by
  obtain ⟨n, hn⟩ := exists_node hid
  have hkind : n.kind ≠ .form := by
    intro hk
    exact hform (by simp [HasKind, kind?, hn, hk])
  have hchildren : t.children id = n.children := by simp [children, hn]
  refine ⟨n, hn, ?_⟩
  rw [eventsAt_eq hn, Node.events, if_neg hkind, hchildren]
  cases htext : n.text with
  | some text => exact .inl ⟨text, rfl, rfl⟩
  | none => exact .inr ⟨rfl, rfl⟩

theorem not_ending_eventsAt {id : Nat} (hid : id < t.size) (hform : ¬ t.HasKind id .form)
    (rest : List Event) : ¬ Event.Ending (t.eventsAt id ++ rest) := by
  obtain ⟨n, -, ⟨text, -, heq⟩ | ⟨-, heq⟩⟩ := eventsAt_cases hid hform
  · simp [Event.Ending, heq, Event.isFinish]
  · simp [Event.Ending, heq, Event.isFinish]

mutual

/-- A node that tells the events of a datum stands for that datum. -/
theorem Sound.datum?_of_events (ht : t.Sound) (d : Datum) {id : Nat} {rest rest' : List Event}
    (hid : id < t.size) (hform : ¬ t.HasKind id .form)
    (h : t.eventsAt id ++ rest = d.events ++ rest') : t.datum? id = some d ∧ rest = rest' := by
  obtain ⟨n, hn, hcases⟩ := eventsAt_cases hid hform
  match d with
  | .token k span text =>
    rw [Datum.events_token] at h
    rcases hcases with ⟨word, htext, heq⟩ | ⟨-, heq⟩
    · rw [heq] at h
      obtain ⟨hevent, hrest⟩ := List.cons.inj h
      obtain ⟨hkind, rfl, rfl⟩ := Event.token.inj hevent
      exact ⟨datum?_of_token hn hkind htext, hrest⟩
    · rw [heq] at h
      cases (List.cons.inj h).1
  | .group c span closed items =>
    rw [Datum.events_group] at h
    rcases hcases with ⟨word, -, heq⟩ | ⟨htext, heq⟩
    · rw [heq] at h
      cases (List.cons.inj h).1
    · rw [heq] at h
      simp only [List.cons_append, List.append_assoc] at h
      obtain ⟨hevent, hinner⟩ := List.cons.inj h
      obtain ⟨hkind, hstart⟩ := Event.start.inj hevent
      have hp : t.kind? id = some (.collection c) := by simp [kind?, hn, hkind]
      rw [ht.flatMap_eventsAt_children hp rfl] at hinner
      have helements : ∀ e ∈ t.elements id, e < t.size ∧ ¬ t.HasKind e .form := by
        intro e he
        exact ⟨(lt_of_mem_elements he).2, ht.not_form_of_mem_elements hp rfl he⟩
      obtain ⟨hitems, hends⟩ := ht.mapM_datum?_of_events items helements
        (by simp [Event.Ending, Event.isFinish]) (by simp [Event.Ending, Event.isFinish]) hinner
      obtain ⟨hfinish, hrest⟩ := List.cons.inj hends
      obtain ⟨hstop, hclosed⟩ := Event.finish.inj hfinish
      refine ⟨?_, hrest⟩
      have hspan : n.span = span := Span.ext hstart hstop
      rw [datum?_of_collection hn hkind htext, hitems, hspan, hclosed]
      rfl

theorem Sound.mapM_datum?_of_events (ht : t.Sound) (ds : List Datum) {ids : List Nat}
    {rest rest' : List Event} (hids : ∀ id ∈ ids, id < t.size ∧ ¬ t.HasKind id .form)
    (hrest : Event.Ending rest) (hrest' : Event.Ending rest')
    (h : ids.flatMap t.eventsAt ++ rest = eventsAll ds ++ rest') :
    ids.mapM t.datum? = some ds ∧ rest = rest' := by
  match ds, ids with
  | [], [] => exact ⟨rfl, h⟩
  | [], id :: ids =>
    obtain ⟨hid, hform⟩ := hids id List.mem_cons_self
    rw [Datum.eventsAll_nil, List.nil_append, List.flatMap_cons, List.append_assoc] at h
    rw [← h] at hrest'
    exact absurd hrest' (not_ending_eventsAt hid hform _)
  | d :: ds, [] =>
    rw [Datum.eventsAll_cons, List.append_assoc] at h
    have heq : rest = d.events ++ (eventsAll ds ++ rest') := h
    rw [heq] at hrest
    exact absurd hrest (d.not_ending_events _)
  | d :: ds, id :: ids =>
    obtain ⟨hid, hform⟩ := hids id List.mem_cons_self
    rw [Datum.eventsAll_cons, List.flatMap_cons, List.append_assoc, List.append_assoc] at h
    obtain ⟨hd, h⟩ := ht.datum?_of_events d hid hform h
    obtain ⟨hds, heq⟩ := ht.mapM_datum?_of_events ds
      (fun i hi => hids i (List.mem_cons_of_mem _ hi)) hrest hrest' h
    exact ⟨by simp [hd, hds], heq⟩

end

/-- A tree that tells the events of some forms has those forms at its top. -/
theorem Sound.data?_eq (ht : t.Sound) {forms : List Datum} (h : t.events = eventsAll forms) :
    t.data? = some forms := by
  have hfile : t.kind? root = some .file := ht.file
  have hids : ∀ e ∈ t.elements root, e < t.size ∧ ¬ t.HasKind e .form := by
    intro e he
    exact ⟨(lt_of_mem_elements he).2, ht.not_form_of_mem_elements hfile rfl he⟩
  have hevents : (t.elements root).flatMap t.eventsAt ++ [] = eventsAll forms ++ [] := by
    rw [← ht.flatMap_eventsAt_children hfile rfl, List.append_nil, List.append_nil]
    exact h
  have hover : Event.Ending [] := by simp [Event.Ending]
  exact (ht.mapM_datum?_of_events forms hids hover hover hevents).1

end SourceTree

/-- No event is lost, added, moved or changed on its way into a tree: the tree tells them all again.
So the tree of a text that can be read holds the forms of that text. -/
theorem ofEvents_tellsAgain :
    (∀ events t, SourceTree.ofEvents events = .ok t → t.events = events) ∧
      ∀ source forms, read source = .ok forms →
        ∃ t, SourceTree.ofData forms = .ok t ∧ t.data? = some forms := by
  have htold : ∀ events t, SourceTree.ofEvents events = .ok t → t.events = events := by
    intro events t h
    obtain ⟨b, hrun, hfinish⟩ := PartialTree.exists_takes h
    exact PartialTree.events_of_takes hrun hfinish
  refine ⟨htold, ?_⟩
  intro source forms h
  obtain ⟨t, ht, htext⟩ := read_ofText h
  exact ⟨t, ht, htext.sound.data?_eq (htold _ t ht)⟩

/-- A region in error inside a list, and a text whose second list nothing closes. -/
theorem ofEvents_tellsAgain_unclosed :
    (∃ t, SourceTree.ofEvents [.start (.collection .list) 0, .start .error 1,
      .token (.token .symbol) "x" ⟨1, 2⟩, .start .error 2, .finish 3 true, .finish 3 false,
      .token .error "?" ⟨4, 4⟩, .finish 5 true] = .ok t ∧
      t.events = [.start (.collection .list) 0, .start .error 1,
        .token (.token .symbol) "x" ⟨1, 2⟩, .start .error 2, .finish 3 true, .finish 3 false,
        .token .error "?" ⟨4, 4⟩, .finish 5 true]) ∧
    ∃ forms, read ":k (f [x] (g 1" = .ok forms ∧
      ∃ t, SourceTree.ofData forms = .ok t ∧ t.data? = some forms := by
  have hevents : SourceTree.ofEvents [.start (.collection .list) 0, .start .error 1,
      .token (.token .symbol) "x" ⟨1, 2⟩, .start .error 2, .finish 3 true, .finish 3 false,
      .token .error "?" ⟨4, 4⟩, .finish 5 true] = .ok _ := rfl
  have hread : read ":k (f [x] (g 1" = .ok _ := rfl
  exact ⟨⟨_, hevents, ofEvents_tellsAgain.1 _ _ hevents⟩, _, hread,
    ofEvents_tellsAgain.2 _ _ hread⟩

end PhelAssist
