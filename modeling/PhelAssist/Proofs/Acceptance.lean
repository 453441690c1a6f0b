import PhelAssist.Tree.Event

namespace PhelAssist

namespace Event

/-- Kinds that a node with children may have. -/
def composites : List NodeKind :=
  [.collection .list, .collection .vector, .collection .map, .error]

def words : List NodeKind := [.token .symbol, .token .keyword, .token .literal, .error]

theorem mem_composites_iff {kind : NodeKind} :
    kind ∈ composites ↔ kind.isDelimited = true ∨ kind = .error := by
  rcases kind with _ | c | _ | _ | _ <;> simp [composites, NodeKind.isDelimited]
  cases c <;> simp

theorem mem_words_iff {kind : NodeKind} : kind ∈ words ↔ kind.isWord = true ∨ kind = .error := by
  rcases kind with _ | _ | _ | t | _ <;> simp [words, NodeKind.isWord]
  cases t <;> simp

def isStart : Event → Bool
  | start .. => true
  | _ => false

def isFinish : Event → Bool
  | finish .. => true
  | _ => false

/-- How many nodes a list of events starts. -/
def starts (events : List Event) : Nat := events.countP isStart

def finishes (events : List Event) : Nat := events.countP isFinish

@[simp] theorem starts_nil : starts [] = 0 := rfl

@[simp] theorem finishes_nil : finishes [] = 0 := rfl

@[simp] theorem starts_append (a b : List Event) : starts (a ++ b) = starts a + starts b :=
  List.countP_append

@[simp] theorem finishes_append (a b : List Event) :
    finishes (a ++ b) = finishes a + finishes b :=
  List.countP_append

@[simp] theorem starts_start (kind : NodeKind) (offset : Nat) (es : List Event) :
    starts (start kind offset :: es) = starts es + 1 :=
  List.countP_cons_of_pos rfl

@[simp] theorem finishes_start (kind : NodeKind) (offset : Nat) (es : List Event) :
    finishes (start kind offset :: es) = finishes es :=
  List.countP_cons_of_neg (by simp [isFinish])

@[simp] theorem starts_token (kind : NodeKind) (text : String) (span : Span) (es : List Event) :
    starts (token kind text span :: es) = starts es :=
  List.countP_cons_of_neg (by simp [isStart])

@[simp] theorem finishes_token (kind : NodeKind) (text : String) (span : Span)
    (es : List Event) : finishes (token kind text span :: es) = finishes es :=
  List.countP_cons_of_neg (by simp [isFinish])

@[simp] theorem starts_finish (stop : Nat) (closed : Bool) (es : List Event) :
    starts (finish stop closed :: es) = starts es :=
  List.countP_cons_of_neg (by simp [isStart])

@[simp] theorem finishes_finish (stop : Nat) (closed : Bool) (es : List Event) :
    finishes (finish stop closed :: es) = finishes es + 1 :=
  List.countP_cons_of_pos rfl

/-- As many ends as starts, and never more ends than starts on the way. -/
structure Balanced (events : List Event) : Prop where
  even : starts events = finishes events
  covered : ∀ before after, events = before ++ after → finishes before ≤ starts before

namespace Balanced

theorem nil : Balanced [] where
  even := rfl
  covered before after h := by simp_all

theorem token (kind : NodeKind) (text : String) (span : Span) :
    Balanced [.token kind text span] where
  even := by simp
  covered before after h := by
    rcases List.append_eq_cons_iff.1 h.symm with ⟨rfl, -⟩ | ⟨tail, rfl, htail⟩
    · simp
    · obtain ⟨rfl, -⟩ := List.append_eq_nil_iff.1 htail.symm
      simp

theorem append {a b : List Event} (ha : Balanced a) (hb : Balanced b) : Balanced (a ++ b) where
  even := by simp [ha.even, hb.even]
  covered before after h := by
    rcases List.append_eq_append_iff.1 h with ⟨rest, rfl, hb'⟩ | ⟨rest, rfl, -⟩
    · have := hb.covered rest after hb'
      have := ha.even
      simp only [starts_append, finishes_append]
      omega
    · exact ha.covered before rest rfl

theorem wrap {inner : List Event} (h : Balanced inner) (kind : NodeKind) (offset stop : Nat)
    (closed : Bool) : Balanced (.start kind offset :: inner ++ [.finish stop closed]) where
  even := by
    have := h.even
    simp
    omega
  covered before after heq := by
    cases before with
    | nil => simp
    | cons first before =>
      simp only [List.cons_append, List.cons.injEq] at heq
      obtain ⟨rfl, heq⟩ := heq
      rcases List.append_eq_append_iff.1 heq with ⟨rest, rfl, hrest⟩ | ⟨rest, rfl, -⟩
      · -- all of `inner` has been seen, and perhaps the end of the node
        have := h.even
        have hlen : finishes rest ≤ 1 := by
          have := congrArg finishes hrest
          simp at this
          omega
        simp
        omega
      · have := h.covered before rest rfl
        simp
        omega

/-- Between a start and its end no other start is left open. -/
theorem not_open {a inner : List Event} {kind : NodeKind} {offset : Nat}
    (h : Balanced (a ++ .start kind offset :: inner)) (hi : Balanced inner) : False := by
  have hprefix := h.covered a _ rfl
  have heven := h.even
  have hinner := hi.even
  simp at heven
  omega

end Balanced

/-- The start that an end belongs to is the only one with balanced events behind it. -/
theorem matching_unique {a a' inner inner' : List Event} {kind kind' : NodeKind}
    {offset offset' : Nat} (hi : Balanced inner) (hi' : Balanced inner')
    (h : a ++ start kind offset :: inner = a' ++ start kind' offset' :: inner') :
    offset = offset' := by
  rcases List.append_eq_append_iff.1 h with ⟨rest, rfl, hrest⟩ | ⟨rest, rfl, hrest⟩
  · rcases List.cons_eq_append_iff.1 hrest with ⟨-, heq⟩ | ⟨rest, rfl, rfl⟩
    · simp_all
    · exact (hi.not_open hi').elim
  · rcases List.cons_eq_append_iff.1 hrest with ⟨-, heq⟩ | ⟨rest, rfl, rfl⟩
    · simp_all
    · exact (hi'.not_open hi).elim

/-- The rule that an event breaks when it comes after `before`. A leaf of a wrong kind is not
looked at any further. -/
inductive Breaks (before : List Event) : Event → EventError → Prop
  | composite {kind : NodeKind} {offset : Nat} (h : kind ∉ composites) :
    Breaks before (start kind offset) (.notComposite kind)
  | word {kind : NodeKind} {text : String} {span : Span} (h : kind ∉ words) :
    Breaks before (token kind text span) (.notToken kind)
  | inverted {kind : NodeKind} {text : String} {span : Span} (hk : kind ∈ words)
    (h : span.stop < span.start) : Breaks before (token kind text span) (.invertedRange span)
  | unmatched {stop : Nat} {closed : Bool} (h : starts before < finishes before + 1) :
    Breaks before (finish stop closed) (.unmatchedFinish stop)
  | early {outer inner : List Event} {kind : NodeKind} {offset stop : Nat} {closed : Bool}
    (hb : before = outer ++ start kind offset :: inner) (hi : Balanced inner)
    (h : stop < offset) : Breaks before (finish stop closed) (.invertedRange ⟨offset, stop⟩)

/-- Events none of which breaks a rule. -/
def Unbroken (events : List Event) : Prop :=
  ∀ before e after error, events = before ++ e :: after → ¬ Breaks before e error

/-- The rules for events that describe a tree. -/
structure Accepted (events : List Event) : Prop where
  composite : ∀ kind offset, start kind offset ∈ events → kind ∈ composites
  word : ∀ kind text span, token kind text span ∈ events →
    kind ∈ words ∧ span.start ≤ span.stop
  balanced : Balanced events
  ordered : ∀ outer kind offset inner stop closed after,
    events = outer ++ start kind offset :: inner ++ finish stop closed :: after →
      Balanced inner → offset ≤ stop

theorem unbroken_nil : Unbroken [] := by
  intro before e after error h
  simp at h

theorem unbroken_concat {events : List Event} {e : Event} :
    Unbroken (events ++ [e]) ↔ Unbroken events ∧ ∀ error, ¬ Breaks events e error := by
  constructor
  · intro h
    refine ⟨fun before x after error heq => ?_, fun error => h events e [] error rfl⟩
    exact h before x (after ++ [e]) error (by simp [heq])
  · rintro ⟨h, hlast⟩ before x after error heq
    rcases List.eq_nil_or_concat after with rfl | ⟨rest, last, rfl⟩
    · obtain ⟨rfl, hx⟩ := List.append_inj' heq rfl
      obtain rfl : e = x := by simpa using hx
      exact hlast error
    · rw [List.concat_eq_append, ← List.cons_append, ← List.append_assoc] at heq
      exact h before x rest error (List.append_inj' heq rfl).1

theorem Accepted.unbroken {events : List Event} (h : Accepted events) : Unbroken events := by
  intro before e after error heq hbreak
  have hmem : e ∈ events := by simp [heq]
  cases hbreak with
  | composite hk => exact hk (h.composite _ _ hmem)
  | word hk => exact hk (h.word _ _ _ hmem).1
  | inverted hk hspan =>
    have := (h.word _ _ _ hmem).2
    omega
  | unmatched hcount =>
    have := h.balanced.covered (before ++ [_]) after (by simpa using heq)
    simp at this
    omega
  | early hb hi hstop =>
    subst hb
    have := h.ordered _ _ _ _ _ _ _ heq hi
    omega

end Event

open Event

/-- The starts that have no end yet, innermost first: each is followed by balanced events up to
the next one. -/
inductive Opens : List Event → List Nat → Prop
  | flat {inner : List Event} (h : Balanced inner) : Opens inner []
  | nest {before inner : List Event} {stack : List Nat} {kind : NodeKind} {offset : Nat}
    (h : Opens before stack) (hi : Balanced inner) :
    Opens (before ++ .start kind offset :: inner) (offset :: stack)

namespace Opens

theorem starts_eq {events : List Event} {stack : List Nat} (h : Opens events stack) :
    starts events = finishes events + stack.length := by
  induction h with
  | flat h => simp [h.even]
  | nest _ hi ih =>
    have := hi.even
    simp
    omega

theorem append {events more : List Event} {stack : List Nat} (h : Opens events stack)
    (hm : Balanced more) : Opens (events ++ more) stack := by
  cases h with
  | flat h => exact .flat (h.append hm)
  | nest h hi =>
    rw [List.append_assoc, List.cons_append]
    exact .nest h (hi.append hm)

/-- The innermost start that has no end, and what followed it. -/
theorem split {events : List Event} {stack : List Nat} {offset : Nat}
    (h : Opens events (offset :: stack)) :
    ∃ outer inner kind, events = outer ++ .start kind offset :: inner ∧ Balanced inner := by
  cases h with
  | nest _ hi => exact ⟨_, _, _, rfl, hi⟩

theorem finish {events : List Event} {stack : List Nat} {offset : Nat}
    (h : Opens events (offset :: stack)) (stop : Nat) (closed : Bool) :
    Opens (events ++ [.finish stop closed]) stack := by
  cases h with
  | nest h hi => simpa using h.append (hi.wrap _ offset stop closed)

end Opens

namespace PartialTree

theorem opened_begin (b : PartialTree) (kind : NodeKind) (offset : Nat) :
    (b.begin kind offset).opened.map (·.start) = offset :: b.opened.map (·.start) := by
  simp only [begin, grow]
  split <;> simp

/-- What an event does to a builder whose open nodes mirror the events so far: it fails exactly
with the rule that it breaks, and else keeps the mirror. -/
theorem step_mirror {b : PartialTree} {before : List Event} (e : Event)
    (hb : Opens before (b.opened.map (·.start))) :
    (∃ error, b.step e = .error error ∧ Breaks before e error) ∨
      ∃ b', b.step e = .ok b' ∧ Opens (before ++ [e]) (b'.opened.map (·.start)) ∧
        ∀ error, ¬ Breaks before e error := by
  cases e with
  | start kind offset =>
    simp only [step, ← mem_composites_iff]
    by_cases hk : kind ∈ composites
    · refine .inr ⟨b.begin kind offset, by simp [hk], ?_, ?_⟩
      · rw [opened_begin]
        exact .nest hb .nil
      · rintro error ⟨h⟩
        exact h hk
    · exact .inl ⟨.notComposite kind, by simp [hk], .composite hk⟩
  | token kind text span =>
    simp only [step, ← mem_words_iff]
    by_cases hk : kind ∈ words
    · by_cases hs : span.stop < span.start
      · exact .inl ⟨.invertedRange span, by simp [hk, hs], .inverted hk hs⟩
      · refine .inr ⟨b.addWord kind text span, by simp [hk, hs], hb.append (.token ..), ?_⟩
        rintro error (_ | _)
        · contradiction
        · contradiction
    · exact .inl ⟨.notToken kind, by simp [hk], .word hk⟩
  | finish stop closed =>
    have hcount := hb.starts_eq
    cases ho : b.opened with
    | nil =>
      rw [ho] at hcount
      refine .inl ⟨.unmatchedFinish stop, by simp [step, ho], .unmatched ?_⟩
      simp at hcount
      omega
    | cons o rest =>
      rw [ho, List.map_cons] at hb hcount
      have hend := hb.finish stop closed
      obtain ⟨outer, inner, kind, rfl, hi⟩ := hb.split
      by_cases hs : stop < o.start
      · exact .inl ⟨.invertedRange ⟨o.start, stop⟩, by simp [step, ho, hs], .early rfl hi hs⟩
      · refine .inr ⟨b.endInnermost o stop closed, by simp [step, ho, hs], ?_, ?_⟩
        · simpa [endInnermost, ho] using hend
        · intro error hbreak
          cases hbreak with
          | unmatched h =>
            simp at hcount h
            omega
          | early heq hinner hlate =>
            have := matching_unique hi hinner heq
            omega

/-- A builder that has taken `before` goes on until an event breaks a rule. From then on no event
matters. -/
theorem run_mirror {before : List Event} {b : PartialTree} (events : List Event)
    (hrun : before.foldlM step empty = .ok b) (hb : Opens before (b.opened.map (·.start)))
    (hu : Unbroken before) :
    (∃ good e rest error, before ++ events = good ++ e :: rest ∧ Unbroken good ∧
      Breaks good e error ∧ ∀ more, (good ++ e :: more).foldlM step empty = .error error) ∨
    ∃ b', (before ++ events).foldlM step empty = .ok b' ∧
      Opens (before ++ events) (b'.opened.map (·.start)) ∧ Unbroken (before ++ events) := by
  induction events generalizing before b with
  | nil =>
    rw [List.append_nil]
    exact .inr ⟨b, hrun, hb, hu⟩
  | cons e events ih =>
    rcases step_mirror e hb with ⟨error, hstep, hbreak⟩ | ⟨b', hstep, hb', hgood⟩
    · refine .inl ⟨before, e, events, error, rfl, hu, hbreak, fun more => ?_⟩
      rw [List.foldlM_append, hrun]
      simp [bind, Except.bind, hstep]
    · have hnext : (before ++ [e]).foldlM step empty = .ok b' := by
        rw [List.foldlM_append, hrun]
        simp [bind, Except.bind, hstep, pure, Except.pure]
      simpa using ih hnext hb' (unbroken_concat.2 ⟨hu, hgood⟩)

theorem finish_eq_ok_iff {b : PartialTree} :
    (∃ t, b.finish = .ok t) ↔ b.opened.length = 0 := by
  unfold finish
  split <;> simp_all

theorem finish_eq_unbalanced {b : PartialTree} (h : b.opened.length ≠ 0) :
    b.finish = .error (.unbalanced b.opened.length) := by
  unfold finish
  split <;> simp_all

end PartialTree

namespace Event

theorem Unbroken.accepted {events : List Event} {stack : List Nat} (h : Unbroken events)
    (hopen : Opens events stack) (heven : starts events = finishes events) : Accepted events where
  composite kind offset hmem := by
    obtain ⟨before, after, rfl⟩ := List.append_of_mem hmem
    refine Decidable.of_not_not fun hk => ?_
    exact h _ _ _ _ rfl (.composite hk)
  word kind text span hmem := by
    obtain ⟨before, after, rfl⟩ := List.append_of_mem hmem
    have hk : kind ∈ words := by
      refine Decidable.of_not_not fun hk => ?_
      exact h _ _ _ _ rfl (.word hk)
    refine ⟨hk, Nat.le_of_not_lt fun hs => ?_⟩
    exact h _ _ _ _ rfl (.inverted hk hs)
  balanced := by
    have hcount := hopen.starts_eq
    cases hopen with
    | flat hb => exact hb
    | nest =>
      simp only [List.length_cons] at hcount
      omega
  ordered outer kind offset inner stop closed after heq hi := by
    refine Nat.le_of_not_lt fun hs => ?_
    exact h _ _ _ _ heq (.early rfl hi hs)

end Event

/-- Events are taken exactly when they keep the rules. Else the earliest event that breaks a rule
decides the error, whatever comes after it; if there is no such event, nodes are left open, and
the error counts them. -/
theorem ofEvents_decides (events : List Event) :
    ((∃ t, SourceTree.ofEvents events = .ok t) ↔ Accepted events) ∧
    (¬ Accepted events →
      (∃ before e after error, events = before ++ e :: after ∧ Unbroken before ∧
        Breaks before e error ∧
          ∀ more, SourceTree.ofEvents (before ++ e :: more) = .error error) ∨
      Unbroken events ∧ finishes events < starts events ∧
        SourceTree.ofEvents events = .error (.unbalanced (starts events - finishes events))) := by
  have hempty : ([] : List Event).foldlM PartialTree.step .empty = .ok .empty := rfl
  have hrun := PartialTree.run_mirror events hempty (.flat .nil) unbroken_nil
  rw [List.nil_append] at hrun
  rcases hrun with ⟨good, e, rest, error, heq, hgood, hbreak, hfail⟩ | ⟨b, hrun, hopen, hu⟩
  · have hfail' : ∀ more, SourceTree.ofEvents (good ++ e :: more) = .error error := by
      intro more
      rw [SourceTree.ofEvents_eq_bind, hfail]
      rfl
    refine ⟨⟨?_, fun hacc => ?_⟩, fun _ => .inl ⟨good, e, rest, error, heq, hgood, hbreak, hfail'⟩⟩
    · rintro ⟨t, ht⟩
      rw [heq, hfail'] at ht
      contradiction
    · exact absurd hbreak (hacc.unbroken good e rest error heq)
  · have hevents : SourceTree.ofEvents events = b.finish := by
      rw [SourceTree.ofEvents_eq_bind, hrun]
      rfl
    have hcount : starts events = finishes events + b.opened.length := by
      simpa using hopen.starts_eq
    have hok : (∃ t, SourceTree.ofEvents events = .ok t) ↔ Accepted events := by
      rw [hevents, PartialTree.finish_eq_ok_iff]
      constructor
      · intro hnone
        exact hu.accepted hopen (by omega)
      · intro hacc
        have := hacc.balanced.even
        omega
    refine ⟨hok, fun hacc => .inr ⟨hu, ?_⟩⟩
    have hne : b.opened.length ≠ 0 := by
      intro hnone
      exact hacc (hok.1 (by rw [hevents]; exact PartialTree.finish_eq_ok_iff.2 hnone))
    have hopened : starts events - finishes events = b.opened.length := by omega
    refine ⟨by omega, ?_⟩
    rw [hevents, hopened]
    exact PartialTree.finish_eq_unbalanced hne

end PhelAssist
