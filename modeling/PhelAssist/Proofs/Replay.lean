import Mathlib.Data.List.Basic
import PhelAssist.Proofs.Acceptance
import PhelAssist.Proofs.Shape

namespace PhelAssist

namespace Event

/-- Events in which every start has its end: words and started nodes, one behind the other. -/
inductive Forest : List Event → Prop
  | nil : Forest []
  | word {kind : NodeKind} {text : String} {span : Span} {rest : List Event} (h : Forest rest) :
    Forest (token kind text span :: rest)
  | node {kind : NodeKind} {offset stop : Nat} {closed : Bool} {inner rest : List Event}
    (hi : Forest inner) (h : Forest rest) :
    Forest (start kind offset :: (inner ++ finish stop closed :: rest))

theorem Forest.even {events : List Event} (h : Forest events) :
    starts events = finishes events := by
  induction h with
  | nil => rfl
  | word _ ih => simpa using ih
  | node _ _ hi h =>
    simp
    omega

/-- Any events start with a forest. Behind it they are over, or come to an end that belongs to no
start, or to a start that has no end. -/
theorem exists_forest (events : List Event) :
    ∃ first rest, events = first ++ rest ∧ Forest first ∧
      (rest = [] ∨ (∃ stop closed more, rest = finish stop closed :: more) ∨
        ∃ kind offset more, rest = start kind offset :: more ∧ finishes more ≤ starts more) :=
  match events with
  | [] => ⟨[], [], rfl, .nil, .inl rfl⟩
  | token kind text span :: events => by
    obtain ⟨first, rest, heq, hforest, hrest⟩ := exists_forest events
    exact ⟨token kind text span :: first, rest, by rw [heq]; rfl, .word hforest, hrest⟩
  | finish stop closed :: events => ⟨[], _, rfl, .nil, .inr (.inl ⟨stop, closed, events, rfl⟩)⟩
  | start kind offset :: events => by
    obtain ⟨first, rest, heq, hforest, hrest⟩ := exists_forest events
    have heven := hforest.even
    have hopen : finishes events ≤ starts events → ∃ first rest,
        start kind offset :: events = first ++ rest ∧ Forest first ∧ (rest = [] ∨
          (∃ stop closed more, rest = finish stop closed :: more) ∨
          ∃ kind offset more, rest = start kind offset :: more ∧ finishes more ≤ starts more) := by
      intro hle
      exact ⟨[], _, rfl, .nil, .inr (.inr ⟨kind, offset, events, rfl, hle⟩)⟩
    rcases hrest with rfl | ⟨stop, closed, more, rfl⟩ | ⟨k, o, more, rfl, hle⟩
    · apply hopen
      simp [heq, heven]
    · have hshorter : more.length < (start kind offset :: events).length := by
        simp [heq]
        omega
      obtain ⟨next, rest, rfl, hnext, hrest⟩ := exists_forest more
      exact ⟨start kind offset :: (first ++ finish stop closed :: next), rest, by simp [heq],
        .node hforest hnext, hrest⟩
    · apply hopen
      simp [heq]
      omega
termination_by events.length

theorem Balanced.forest {events : List Event} (h : Balanced events) : Forest events := by
  obtain ⟨first, rest, rfl, hforest, hrest⟩ := exists_forest events
  have heven := h.even
  have hfirst := hforest.even
  rcases hrest with rfl | ⟨stop, closed, more, rfl⟩ | ⟨kind, offset, more, rfl, hle⟩
  · rwa [List.append_nil]
  · have hcovered := h.covered (first ++ [finish stop closed]) more (by simp)
    simp at hcovered
    omega
  · simp at heven
    omega

end Event

/-- The events of a node, given those of the nodes below it. A form has none of its own. -/
def Node.events (n : Node) (inner : List Event) : List Event :=
  if n.kind = .form then inner
  else
    match n.text with
    | some text => [.token n.kind text n.span]
    | none => .start n.kind n.span.start :: (inner ++ [.finish n.span.stop n.closed])

namespace SourceTree

/-- The events of a node and of all that stands below it, in pre-order. -/
def eventsAt (t : SourceTree) (id : Nat) : List Event :=
  match t.node? id with
  | none => []
  | some n => n.events ((t.children id).attach.flatMap fun c => t.eventsAt c.1)
termination_by t.size - id
decreasing_by
  have := lt_of_mem_children c.2
  omega

/-- The events of a whole tree. The file itself has none. -/
def events (t : SourceTree) : List Event := (t.children root).flatMap t.eventsAt

variable {t t' : SourceTree}

theorem eventsAt_eq {id : Nat} {n : Node} (hn : t.node? id = some n) :
    t.eventsAt id = n.events (n.children.flatMap t.eventsAt) := by
  have hchildren : t.children id = n.children := by simp [children, hn]
  rw [eventsAt, hn]
  simp [List.flatMap_subtype (g := t.eventsAt), hchildren]

/-- The events of a node depend on it and on later nodes alone. -/
theorem eventsAt_congr {id : Nat} (hid : id < t.size)
    (h : ∀ i, id ≤ i → i < t.size → t'.node? i = t.node? i) : t'.eventsAt id = t.eventsAt id := by
  obtain ⟨n, hn⟩ := exists_node hid
  have hn' := h id (Nat.le_refl id) hid
  rw [hn] at hn'
  rw [eventsAt_eq hn, eventsAt_eq hn']
  congr 1
  apply List.flatMap_congr
  intro c hc
  have hlt := (t.ordered id n hn).2 c hc
  exact eventsAt_congr hlt.2 fun i hi => h i (by omega)
termination_by t.size - id

theorem flatMap_eventsAt_congr {ids : List Nat} (hids : ∀ c ∈ ids, c < t.size)
    (h : ∀ c ∈ ids, ∀ i, c ≤ i → i < t.size → t'.node? i = t.node? i) :
    ids.flatMap t'.eventsAt = ids.flatMap t.eventsAt := by
  apply List.flatMap_congr
  intro c hc
  exact eventsAt_congr (hids c hc) (h c hc)

/-- `id` is `node`, or the form around it. -/
def Holds (t : SourceTree) (id node : Nat) : Prop :=
  id = node ∨ t.HasKind id .form ∧ t.children id = [node]

theorem Holds.eventsAt {id node : Nat} (h : t.Holds id node) :
    t.eventsAt id = t.eventsAt node := by
  rcases h with rfl | ⟨hkind, hchildren⟩
  · rfl
  · obtain ⟨n, hn, hk⟩ := Option.map_eq_some_iff.1 hkind
    have hinner : n.children = [node] := by simpa [SourceTree.children, hn] using hchildren
    rw [eventsAt_eq hn, Node.events, if_pos hk, hinner, List.flatMap_singleton]

theorem Holds.congr {id node : Nat} (h : t.Holds id node)
    (hsame : id ≠ node → t'.node? id = t.node? id) : t'.Holds id node := by
  by_cases hid : id = node
  · exact .inl hid
  · obtain ⟨hkind, hchildren⟩ := h.resolve_left hid
    refine .inr ⟨?_, ?_⟩
    · rwa [HasKind, kind?, hsame hid]
    · rwa [SourceTree.children, hsame hid]

end SourceTree

namespace PartialTree

open SourceTree

/-- `b'` is `b` with more nodes, of which `added` stand right below the innermost open one. All
else is as it was. -/
structure Extends (b b' : PartialTree) (added : List Nat) : Prop where
  opened : b'.opened = b.opened
  size : b.tree.size ≤ b'.tree.size
  old : ∀ i, i < b.tree.size → i ≠ b.innermost → b'.tree.node? i = b.tree.node? i
  parent : b'.tree.node? b.innermost =
    (b.tree.node? b.innermost).map fun n => { n with children := n.children ++ added }
  fresh : ∀ c ∈ added, b.tree.size ≤ c ∧ c < b'.tree.size

namespace Extends

variable {b b₁ b' : PartialTree} {added more : List Nat}

theorem refl (b : PartialTree) : b.Extends b [] where
  opened := rfl
  size := Nat.le_refl _
  old := fun _ _ _ => rfl
  parent := by simp
  fresh := by simp

theorem innermost (h : b.Extends b' added) : b'.innermost = b.innermost := by
  unfold PartialTree.innermost
  rw [h.opened]

/-- What has been added before keeps its events when more is added. -/
theorem eventsAt (h : b.Extends b₁ added) (h' : b₁.Extends b' more) :
    added.flatMap b'.tree.eventsAt = added.flatMap b₁.tree.eventsAt := by
  apply flatMap_eventsAt_congr
  · intro c hc
    exact (h.fresh c hc).2
  · intro c hc i hi hlt
    apply h'.old i hlt
    have hfresh := (h.fresh c hc).1
    have hinner := b.innermost_lt
    rw [h.innermost]
    omega

theorem trans (h : b.Extends b₁ added) (h' : b₁.Extends b' more) :
    b.Extends b' (added ++ more) where
  opened := h'.opened.trans h.opened
  size := Nat.le_trans h.size h'.size
  old i hi hne := by
    rw [h'.old i (Nat.lt_of_lt_of_le hi h.size) (h.innermost ▸ hne)]
    exact h.old i hi hne
  parent := by
    have hparent := h'.parent
    rw [h.innermost] at hparent
    rw [hparent, h.parent, Option.map_map]
    congr 1
    funext n
    simp
  fresh c hc := by
    have hsize := h'.size
    have hsize' := h.size
    rcases List.mem_append.1 hc with hc | hc
    · have := h.fresh c hc
      omega
    · have := h'.fresh c hc
      omega

end Extends

section Grow

variable {b : PartialTree} {kind : NodeKind} {span : Span} {text : Option String}

theorem node?_grow_of_lt {i : Nat} (hi : i < b.tree.size) (hne : i ≠ b.innermost) :
    (b.grow kind span text).1.node? i = b.tree.node? i := by
  by_cases hw : b.wraps = true
  · rw [grow_of_wraps hw, node?_append, node?_append, size_append, if_neg (by omega),
      if_neg (by omega)]
    simp [hne, Nat.ne_of_lt hi]
  · rw [grow_of_not_wraps hw, node?_append, if_neg (by omega)]
    simp [hne]

/-- The innermost open node gets one child, whether that is a form or not. -/
theorem node?_grow_innermost :
    (b.grow kind span text).1.node? b.innermost = (b.tree.node? b.innermost).map fun n =>
      { n with children := n.children ++ [b.tree.size] } := by
  have hlt := b.innermost_lt
  by_cases hw : b.wraps = true
  · rw [grow_of_wraps hw, node?_append, node?_append, size_append, if_neg (by omega),
      if_neg (by omega)]
    simp [Nat.ne_of_lt hlt, Node.adopt, Function.comp_def]
  · rw [grow_of_not_wraps hw, node?_append, if_neg (by omega)]
    simp [Node.adopt]

theorem node?_grow_node (b : PartialTree) (kind : NodeKind) (span : Span) (text : Option String) :
    ∃ parent, (b.grow kind span text).1.node? (b.grow kind span text).2.node =
      some ⟨kind, span, text, some parent, [], true⟩ := by
  by_cases hw : b.wraps = true
  · rw [grow_of_wraps hw]
    exact ⟨b.tree.size, by simp [node?_append]⟩
  · rw [grow_of_not_wraps hw]
    exact ⟨b.innermost, by simp [node?_append]⟩

theorem holds_grow :
    (b.grow kind span text).1.Holds b.tree.size (b.grow kind span text).2.node := by
  by_cases hw : b.wraps = true
  · rw [grow_of_wraps hw]
    right
    have hne : b.tree.size ≠ b.innermost := Nat.ne_of_gt b.innermost_lt
    refine ⟨by simp [HasKind, kind?_append], ?_⟩
    rw [children_append, children_append, if_pos rfl, if_neg hne,
      children_of_size_le (Nat.le_refl _)]
    simp
  · rw [grow_of_not_wraps hw]
    exact .inl rfl

theorem pending_grow_cases (b : PartialTree) (kind : NodeKind) (span : Span)
    (text : Option String) :
    (b.grow kind span text).2 = ⟨b.tree.size + 1, some b.tree.size, span.start⟩ ∨
      (b.grow kind span text).2 = ⟨b.tree.size, none, span.start⟩ := by
  by_cases hw : b.wraps = true
  · exact .inl (by rw [grow_of_wraps hw])
  · exact .inr (by rw [grow_of_not_wraps hw])

end Grow

section EndInnermost

variable {b : PartialTree} {o : Pending} {stop : Nat} {closed : Bool}

theorem node?_endInnermost_of_ne {i : Nat} (hnode : i ≠ o.node) (hform : o.wrapper ≠ some i) :
    (b.endInnermost o stop closed).tree.node? i = b.tree.node? i := by
  rw [tree_endInnermost]
  cases hw : o.wrapper with
  | none => simp [node?_settle, hnode]
  | some form =>
    have hne : i ≠ form := by
      rintro rfl
      exact hform hw
    simp [node?_settle, hnode, hne]

theorem node?_endInnermost_node (hform : o.wrapper ≠ some o.node) :
    (b.endInnermost o stop closed).tree.node? o.node =
      (b.tree.node? o.node).map (·.settle stop closed) := by
  rw [tree_endInnermost]
  cases hw : o.wrapper with
  | none => simp [node?_settle]
  | some form =>
    have hne : o.node ≠ form := by
      intro h
      exact hform (h ▸ hw)
    simp [node?_settle, hne, Function.comp_def]

theorem children_endInnermost (i : Nat) :
    (b.endInnermost o stop closed).tree.children i = b.tree.children i := by
  rw [tree_endInnermost]
  cases o.wrapper <;> simp

theorem holds_endInnermost {id node : Nat} (h : b.tree.Holds id node) :
    (b.endInnermost o stop closed).tree.Holds id node := by
  rw [Holds, HasKind, kind?_endInnermost, children_endInnermost]
  exact h

end EndInnermost

section Steps

variable {b b' : PartialTree}

theorem eq_begin_of_step {kind : NodeKind} {offset : Nat}
    (h : b.step (.start kind offset) = .ok b') : kind ≠ .form ∧ b' = b.begin kind offset := by
  rcases step_cases h with ⟨kind, offset, heq, hk, rfl⟩ | ⟨_, _, _, heq, -⟩ |
    ⟨_, _, _, _, heq, -⟩
  · obtain ⟨rfl, rfl⟩ := Event.start.inj heq
    refine ⟨?_, rfl⟩
    rintro rfl
    simp [NodeKind.isDelimited] at hk
  · cases heq
  · cases heq

theorem eq_addWord_of_step {kind : NodeKind} {text : String} {span : Span}
    (h : b.step (.token kind text span) = .ok b') :
    kind ≠ .form ∧ b' = b.addWord kind text span := by
  rcases step_cases h with ⟨_, _, heq, -⟩ | ⟨_, _, _, heq, hk, -, rfl⟩ | ⟨_, _, _, _, heq, -⟩
  · cases heq
  · obtain ⟨rfl, rfl, rfl⟩ := Event.token.inj heq
    refine ⟨?_, rfl⟩
    rintro rfl
    simp [NodeKind.isWord] at hk
  · cases heq

theorem eq_endInnermost_of_step {stop : Nat} {closed : Bool}
    (h : b.step (.finish stop closed) = .ok b') :
    ∃ o rest, b.opened = o :: rest ∧ b' = b.endInnermost o stop closed := by
  rcases step_cases h with ⟨_, _, heq, -⟩ | ⟨_, _, _, heq, -⟩ | ⟨_, _, o, rest, heq, ho, -, rfl⟩
  · cases heq
  · cases heq
  · cases heq
    exact ⟨o, rest, ho, rfl⟩

theorem Takes.append_inv {es fs : List Event} (h : b.Takes (es ++ fs) b') :
    ∃ b₁, b.Takes es b₁ ∧ b₁.Takes fs b' := by
  unfold Takes at h
  rw [List.foldlM_append] at h
  exact ok_of_bind_eq_ok h

end Steps

section Forest

variable {b b₁ b₂ : PartialTree} {kind : NodeKind} {kids : List Nat}

theorem extends_addWord (b : PartialTree) (kind : NodeKind) (text : String) (span : Span) :
    b.Extends (b.addWord kind text span) [b.tree.size] where
  opened := rfl
  size := Nat.le_of_lt (b.lt_size_grow kind span (some text)).1
  old _ := node?_grow_of_lt
  parent := node?_grow_innermost
  fresh c hc := by
    rw [List.mem_singleton.1 hc]
    exact ⟨Nat.le_refl _, (b.lt_size_grow kind span (some text)).1⟩

theorem eventsAt_addWord (b : PartialTree) (hkind : kind ≠ .form) (text : String) (span : Span) :
    (b.addWord kind text span).tree.eventsAt b.tree.size = [.token kind text span] := by
  obtain ⟨parent, hnode⟩ := node?_grow_node b kind span (some text)
  apply holds_grow.eventsAt.trans
  rw [eventsAt_eq hnode, Node.events, if_neg hkind]

section Node

variable {offset stop : Nat} {closed : Bool} {o : Pending}

/-- A node that is started comes behind all that was there, and behind its form. -/
theorem pending_grow_bounds {span : Span} {text : Option String}
    (ho : o = (b.grow kind span text).2) :
    b.tree.size ≤ o.node ∧ ∀ f, o.wrapper = some f → b.tree.size ≤ f ∧ f < o.node := by
  rcases pending_grow_cases b kind span text with hp | hp
  · simp [ho, hp]
  · simp [ho, hp]

theorem innermost_begin (ho : o = (b.grow kind ⟨offset, offset⟩ none).2) :
    (b.begin kind offset).innermost = o.node := by
  rw [ho]
  rfl

/-- A node that is started, filled and ended is one more child of the innermost open node. -/
theorem extends_node (ho : o = (b.grow kind ⟨offset, offset⟩ none).2)
    (h : (b.begin kind offset).Extends b₂ kids) :
    b.Extends (b₂.endInnermost o stop closed) [b.tree.size] := by
  have hsize := (b.lt_size_grow kind ⟨offset, offset⟩ none).1
  have hbegin : (b.begin kind offset).tree.size = (b.grow kind ⟨offset, offset⟩ none).1.size := rfl
  obtain ⟨hlate, hform⟩ := pending_grow_bounds ho
  -- nodes from before the start are not touched by the end
  have hold : ∀ i, i < b.tree.size → (b₂.endInnermost o stop closed).tree.node? i =
      (b.grow kind ⟨offset, offset⟩ none).1.node? i := by
    intro i hi
    rw [node?_endInnermost_of_ne (by omega)]
    · apply h.old i
      · omega
      · rw [innermost_begin ho]
        omega
    · intro hw
      have := (hform i hw).1
      omega
  constructor
  · simp [endInnermost, h.opened, PartialTree.begin]
  · have := h.size
    rw [size_endInnermost]
    omega
  · intro i hi hne
    rw [hold i hi]
    exact node?_grow_of_lt hi hne
  · rw [hold _ b.innermost_lt]
    exact node?_grow_innermost
  · intro c hc
    have := h.size
    rw [List.mem_singleton.1 hc, size_endInnermost]
    omega

/-- A node that has been ended, with the children that it got meanwhile. -/
theorem node?_node (ho : o = (b.grow kind ⟨offset, offset⟩ none).2)
    (h : (b.begin kind offset).Extends b₂ kids) :
    ∃ parent, (b₂.endInnermost o stop closed).tree.node? o.node =
      some ⟨kind, ⟨offset, stop⟩, none, some parent, kids, closed⟩ := by
  obtain ⟨parent, hnew⟩ := node?_grow_node b kind ⟨offset, offset⟩ none
  have hfilled := h.parent
  rw [innermost_begin ho] at hfilled
  rw [← ho] at hnew
  refine ⟨parent, ?_⟩
  rw [node?_endInnermost_node, hfilled]
  · simp [PartialTree.begin, hnew, Node.settle]
  · intro hw
    exact Nat.lt_irrefl _ ((pending_grow_bounds ho).2 _ hw).2

/-- The end of a node changes nothing below it. -/
theorem flatMap_eventsAt_node (ho : o = (b.grow kind ⟨offset, offset⟩ none).2)
    (h : (b.begin kind offset).Extends b₂ kids) :
    kids.flatMap (b₂.endInnermost o stop closed).tree.eventsAt =
      kids.flatMap b₂.tree.eventsAt := by
  have hsize := size_grow_eq b kind ⟨offset, offset⟩ none
  rw [← ho] at hsize
  apply flatMap_eventsAt_congr
  · intro c hc
    exact (h.fresh c hc).2
  · intro c hc i hi _
    have hlate : (b.grow kind ⟨offset, offset⟩ none).1.size ≤ c := (h.fresh c hc).1
    apply node?_endInnermost_of_ne (by omega)
    intro hw
    have := ((pending_grow_bounds ho).2 i hw).2
    omega

theorem eventsAt_node (ho : o = (b.grow kind ⟨offset, offset⟩ none).2) (hkind : kind ≠ .form)
    (h : (b.begin kind offset).Extends b₂ kids) :
    (b₂.endInnermost o stop closed).tree.eventsAt b.tree.size =
      .start kind offset :: (kids.flatMap b₂.tree.eventsAt ++ [.finish stop closed]) := by
  have hholds : b₂.tree.Holds b.tree.size o.node := by
    have hgrow : (b.begin kind offset).tree.Holds b.tree.size o.node := ho ▸ holds_grow
    apply hgrow.congr
    intro hne
    exact h.old _ (b.lt_size_grow kind ⟨offset, offset⟩ none).1 (innermost_begin ho ▸ hne)
  obtain ⟨parent, hnode⟩ :
      ∃ parent, (b₂.endInnermost o stop closed).tree.node? o.node =
        some ⟨kind, ⟨offset, stop⟩, none, some parent, kids, closed⟩ := node?_node ho h
  rw [(holds_endInnermost hholds).eventsAt, eventsAt_eq hnode, Node.events,
    flatMap_eventsAt_node ho h]
  simp [hkind]

end Node

/-- A forest of events adds its nodes below the innermost open one, and the new nodes tell the same
events again. -/
theorem Takes.forest {events : List Event} (hforest : Event.Forest events)
    (h : b.Takes events b₁) :
    ∃ added, b.Extends b₁ added ∧ added.flatMap b₁.tree.eventsAt = events := by
  induction hforest generalizing b b₁ with
  | nil =>
    obtain rfl : b = b₁ := Except.ok.inj h
    exact ⟨[], .refl b, rfl⟩
  | @word kind text span rest _ ih =>
    obtain ⟨b', hstep, hrest⟩ := h.cons_inv
    obtain ⟨hkind, rfl⟩ := eq_addWord_of_step hstep
    obtain ⟨more, hmore, hevents⟩ := ih hrest
    have hword := extends_addWord b kind text span
    refine ⟨[b.tree.size] ++ more, hword.trans hmore, ?_⟩
    rw [List.flatMap_append, hword.eventsAt hmore, hevents, List.flatMap_singleton,
      eventsAt_addWord b hkind]
    rfl
  | @node kind offset stop closed inner rest _ _ ihi ih =>
    obtain ⟨b', hstart, hrun⟩ := h.cons_inv
    obtain ⟨hkind, rfl⟩ := eq_begin_of_step hstart
    obtain ⟨b₂, hinner, hrun⟩ := hrun.append_inv
    obtain ⟨kids, hkids, hinnerEvents⟩ := ihi hinner
    obtain ⟨b₃, hfinish, hrest⟩ := hrun.cons_inv
    obtain ⟨o, others, ho, rfl⟩ := eq_endInnermost_of_step hfinish
    have hnew : o = (b.grow kind ⟨offset, offset⟩ none).2 := by
      have hopened := hkids.opened
      rw [ho] at hopened
      exact (List.cons.inj hopened).1
    obtain ⟨more, hmore, hevents⟩ := ih hrest
    have hnode : b.Extends (b₂.endInnermost o stop closed) [b.tree.size] := extends_node hnew hkids
    refine ⟨[b.tree.size] ++ more, hnode.trans hmore, ?_⟩
    rw [List.flatMap_append, hnode.eventsAt hmore, hevents, List.flatMap_singleton,
      eventsAt_node hnew hkind hkids, hinnerEvents]
    simp

end Forest

/-- A complete tree tells the events that it was made of. -/
theorem events_of_takes {b : PartialTree} {events : List Event} {t : SourceTree}
    (h : empty.Takes events b) (hfinish : b.finish = .ok t) : t.events = events := by
  obtain ⟨hopened, rfl⟩ := finish_cases hfinish
  have hforest : Event.Forest events := by
    have hmirror := run_mirror events (b := empty) rfl (.flat .nil) Event.unbroken_nil
    rw [List.nil_append] at hmirror
    rcases hmirror with ⟨good, e, rest, error, rfl, -, -, hfail⟩ | ⟨b', hrun, hopens, -⟩
    · have hcontra := (hfail rest).symm.trans h
      contradiction
    · obtain rfl : b' = b := Except.ok.inj (hrun.symm.trans h)
      rw [hopened] at hopens
      cases hopens with
      | flat hbalanced => exact hbalanced.forest
  obtain ⟨added, hextends, hevents⟩ := h.forest hforest
  have hchildren : b.tree.children root = added := by
    have hroot : b.tree.node? root = some ⟨.file, ⟨0, 0⟩, none, none, added, true⟩ :=
      hextends.parent
    simp [children, hroot]
  rw [SourceTree.events, children_settle, hchildren, ← hevents]
  apply flatMap_eventsAt_congr
  · intro c hc
    exact (hextends.fresh c hc).2
  · intro c hc i hi _
    have hfresh : 1 ≤ c := (hextends.fresh c hc).1
    have hne : i ≠ root := Nat.ne_of_gt (Nat.lt_of_lt_of_le hfresh hi)
    rw [node?_settle]
    simp [hne]

end PartialTree
end PhelAssist
