import PhelAssist.Datum.Reader
import PhelAssist.Proofs.Spacing

namespace PhelAssist

open Datum (eventsAll)

theorem ok_of_map_eq_ok {ε α β : Type} {x : Except ε α} {f : α → β} {y : β}
    (h : x.map f = .ok y) : ∃ a, x = .ok a ∧ f a = y := by
  cases x with
  | error error => contradiction
  | ok a => exact ⟨a, rfl, Except.ok.inj h⟩

theorem ok_of_bind_eq_ok {ε α β : Type} {x : Except ε α} {f : α → Except ε β} {y : β}
    (h : x.bind f = .ok y) : ∃ a, x = .ok a ∧ f a = .ok y := by
  cases x with
  | error error => contradiction
  | ok a => exact ⟨a, rfl, h⟩

theorem ok_of_foldlM_cons_eq_ok {ε α β : Type} {f : β → α → Except ε β} {a : α} {l : List α}
    {x y : β} (h : (a :: l).foldlM f x = .ok y) :
    ∃ x', f x a = .ok x' ∧ l.foldlM f x' = .ok y := by
  rw [List.foldlM_cons] at h
  exact ok_of_bind_eq_ok h

theorem foldlM_cons_of_ok {ε α β : Type} {f : β → α → Except ε β} {a : α} {x y : β}
    (h : f x a = .ok y) (l : List α) : (a :: l).foldlM f x = l.foldlM f y := by
  rw [List.foldlM_cons, h]
  rfl

theorem foldlM_append_of_ok {ε α β : Type} {f : β → α → Except ε β} {l : List α} {x y : β}
    (h : l.foldlM f x = .ok y) (l' : List α) : (l ++ l').foldlM f x = l'.foldlM f y := by
  rw [List.foldlM_append, h]
  rfl

/-- What one step keeps, a run keeps. -/
theorem foldlM_preserves {ε α β : Type} {f : β → α → Except ε β} {P : β → Prop}
    (hstep : ∀ {x y : β} {a : α}, P x → f x a = .ok y → P y) {l : List α} {x y : β} (hx : P x)
    (h : l.foldlM f x = .ok y) : P y := by
  induction l generalizing x with
  | nil =>
    obtain rfl : x = y := Except.ok.inj h
    exact hx
  | cons a l ih =>
    obtain ⟨x', hfirst, h⟩ := ok_of_foldlM_cons_eq_ok h
    exact ih (hstep hx hfirst) h

namespace Datum

@[simp] theorem eventsAll_nil : eventsAll [] = [] := by simp [eventsAll]

@[simp] theorem eventsAll_cons (d : Datum) (ds : List Datum) :
    eventsAll (d :: ds) = d.events ++ eventsAll ds := by
  simp [eventsAll]

@[simp] theorem eventsAll_append (a b : List Datum) :
    eventsAll (a ++ b) = eventsAll a ++ eventsAll b := by
  induction a with
  | nil => simp
  | cons d a ih => simp [ih]

theorem events_group (c : Collection) (span : Span) (closed : Bool) (items : List Datum) :
    (group c span closed items).events =
      .start (.collection c) span.start :: eventsAll items ++ [.finish span.stop closed] := by
  simp [events]

theorem events_token (k : Token) (span : Span) (text : String) :
    (token k span text).events = [.token (.token k) text span] := by
  simp [events]

/-- The given data and all below them, in source order. -/
def nodes (ds : List Datum) : List Datum := (outlineAll 0 ds).map (·.2)

mutual

theorem map_outline (d : Datum) (depth depth' : Nat) :
    (d.outline depth).map (·.2) = (d.outline depth').map (·.2) :=
  match d with
  | token .. => by simp [outline]
  | group _ _ _ items => by
    simp only [outline, List.map_cons]
    rw [map_outlineAll items (depth + 1) (depth' + 1)]

theorem map_outlineAll (ds : List Datum) (depth depth' : Nat) :
    (outlineAll depth ds).map (·.2) = (outlineAll depth' ds).map (·.2) :=
  match ds with
  | [] => by simp [outlineAll]
  | d :: ds => by
    simp only [outlineAll, List.map_append]
    rw [map_outline d depth depth', map_outlineAll ds depth depth']

end

@[simp] theorem nodes_nil : nodes [] = [] := by simp [nodes, outlineAll]

@[simp] theorem nodes_cons (d : Datum) (ds : List Datum) :
    nodes (d :: ds) = d :: (nodes d.items ++ nodes ds) := by
  cases d with
  | token k span text => simp [nodes, outlineAll, outline, Datum.items]
  | group c span closed items =>
    have hitems := map_outlineAll items 1 0
    simp [nodes, outlineAll, outline, Datum.items, hitems]

@[simp] theorem nodes_append (a b : List Datum) : nodes (a ++ b) = nodes a ++ nodes b := by
  induction a with
  | nil => simp
  | cons d ds ih => simp [ih]

theorem mem_nodes_of_mem {ds : List Datum} {d : Datum} (h : d ∈ ds) : d ∈ nodes ds := by
  induction ds with
  | nil => simp at h
  | cons e ds ih =>
    rw [nodes_cons]
    rcases List.mem_cons.1 h with rfl | h
    · exact List.mem_cons_self
    · exact List.mem_cons_of_mem _ (List.mem_append_right _ (ih h))

/-- What is told about a datum itself. -/
def ownEvents : Datum → List Event
  | token k span text => [.token (.token k) text span]
  | group c span closed _ => [.start (.collection c) span.start, .finish span.stop closed]

mutual

theorem mem_events_iff (d : Datum) (e : Event) :
    e ∈ d.events ↔ e ∈ d.ownEvents ∨ ∃ x ∈ nodes d.items, e ∈ x.ownEvents :=
  match d with
  | token .. => by simp [events_token, ownEvents, Datum.items]
  | group c span closed items => by
    have hitems := mem_eventsAll_iff items e
    rw [events_group]
    simp only [List.cons_append, List.mem_cons, List.mem_append, hitems, ownEvents, Datum.items,
      List.not_mem_nil, or_false]
    rw [or_assoc, or_comm (a := e = .finish span.stop closed)]

/-- Events tell about each datum of every level, and about nothing else. -/
theorem mem_eventsAll_iff (ds : List Datum) (e : Event) :
    e ∈ eventsAll ds ↔ ∃ d ∈ nodes ds, e ∈ d.ownEvents :=
  match ds with
  | [] => by simp
  | d :: ds => by
    have hd := mem_events_iff d e
    have hds := mem_eventsAll_iff ds e
    rw [eventsAll_cons, List.mem_append, hd, hds, nodes_cons]
    simp only [List.mem_cons, List.mem_append]
    constructor
    · intro h
      rcases h with (h | ⟨x, hx, h⟩) | ⟨x, hx, h⟩
      · exact ⟨d, .inl rfl, h⟩
      · exact ⟨x, .inr (.inl hx), h⟩
      · exact ⟨x, .inr (.inr hx), h⟩
    · intro h
      obtain ⟨x, rfl | hx | hx, h⟩ := h
      · exact .inl (.inl h)
      · exact .inl (.inr ⟨x, hx, h⟩)
      · exact .inr ⟨x, hx, h⟩

end

theorem token_mem_nodes_iff {ds : List Datum} {k : Token} {span : Span} {text : String} :
    token k span text ∈ nodes ds ↔ Event.token (.token k) text span ∈ eventsAll ds := by
  rw [mem_eventsAll_iff]
  constructor
  · intro h
    exact ⟨_, h, List.mem_singleton_self _⟩
  · intro h
    obtain ⟨d, hd, he⟩ := h
    cases d with
    | group c s closed items => simp [ownEvents] at he
    | token k' s text' =>
      obtain ⟨rfl, rfl, rfl⟩ := by simpa [ownEvents] using he
      exact hd

end Datum

theorem Collection.utf8Size_opening (c : Collection) : c.opening.utf8Size = 1 := by
  cases c <;> decide

theorem Collection.utf8Size_closing (c : Collection) : c.closing.utf8Size = 1 := by
  cases c <;> decide

/-- What a lexeme tells a tree under construction. -/
def Lexeme.event : Lexeme → Event
  | opening c offset => .start (.collection c) offset
  | closing c offset => .finish (offset + c.closing.utf8Size) true
  | token kind span text => .token (.token kind) text span

def Lexeme.span : Lexeme → Span
  | opening c offset => ⟨offset, offset + c.opening.utf8Size⟩
  | closing c offset => ⟨offset, offset + c.closing.utf8Size⟩
  | token _ span _ => span

def Level.events (l : Level) : List Event :=
  .start (.collection l.collection) l.start :: eventsAll l.items

namespace Nesting

/-- What data read so far tell a tree under construction, outermost first. -/
def events (n : Nesting) : List Event :=
  eventsAll n.forms ++ n.levels.reverse.flatMap Level.events

theorem events_add (n : Nesting) (d : Datum) : (n.add d).events = n.events ++ d.events := by
  unfold add
  split
  · next h => simp [events, h]
  · next l ls h => simp [events, h, Level.events]

theorem length_levels_add (n : Nesting) (d : Datum) :
    (n.add d).levels.length = n.levels.length := by
  unfold add
  split <;> simp [*]

/-- What a lexeme that is taken does. -/
theorem apply_cases {n n' : Nesting} {lex : Lexeme} (h : n.apply lex = .ok n') :
    (∃ kind span text, lex = .token kind span text ∧ n' = n.add (.token kind span text)) ∨
    (∃ c offset, lex = .opening c offset ∧ n' = ⟨⟨c, offset, []⟩ :: n.levels, n.forms⟩) ∨
    ∃ c offset l ls, lex = .closing c offset ∧ n.levels = l :: ls ∧ l.collection = c ∧
      n' = add ⟨ls, n.forms⟩ (l.close (offset + c.closing.utf8Size) true) := by
  cases lex with
  | token kind span text => exact .inl ⟨kind, span, text, rfl, (Except.ok.inj h).symm⟩
  | opening c offset => exact .inr (.inl ⟨c, offset, rfl, (Except.ok.inj h).symm⟩)
  | closing c offset =>
    simp only [apply] at h
    split at h
    · contradiction
    · next l ls hl =>
      split at h
      · next hc => exact .inr (.inr ⟨c, offset, l, ls, rfl, hl, hc, (Except.ok.inj h).symm⟩)
      · contradiction

/-- Reading is a stream: each lexeme adds its own event and changes none before it. -/
theorem events_apply {n n' : Nesting} {lex : Lexeme} (h : n.apply lex = .ok n') :
    n'.events = n.events ++ [lex.event] := by
  rcases apply_cases h with ⟨kind, span, text, rfl, rfl⟩ | ⟨c, offset, rfl, rfl⟩ |
    ⟨c, offset, l, ls, rfl, hl, hc, rfl⟩
  · rw [events_add, Datum.events_token, Lexeme.event]
  · simp [events, Level.events, Lexeme.event]
  · rw [events_add, Level.close, Datum.events_group]
    simp [events, hl, Level.events, Lexeme.event]

/-- At the end of the text the open collections end one after the other, innermost first. -/
theorem eventsAll_finish (n : Nesting) (stop : Nat) :
    eventsAll (n.finish stop) =
      n.events ++ List.replicate n.levels.length (.finish stop false) := by
  have hfold : ∀ (levels : List Level) (inner : List Datum),
      eventsAll (levels.foldl (fun inner l =>
        [Level.close ⟨l.collection, l.start, l.items ++ inner⟩ stop false]) inner) =
      levels.reverse.flatMap Level.events ++ eventsAll inner ++
        List.replicate levels.length (.finish stop false) := by
    intro levels
    induction levels with
    | nil => simp
    | cons l ls ih =>
      intro inner
      rw [List.foldl_cons, ih]
      simp [Level.close, Datum.events_group, Level.events, List.replicate_succ]
  simp [finish, events, hfold]

end Nesting

namespace PartialTree

/-- A tree under construction takes events and becomes another one. -/
def Takes (b : PartialTree) (events : List Event) (b' : PartialTree) : Prop :=
  events.foldlM step b = .ok b'

namespace Takes

theorem nil (b : PartialTree) : b.Takes [] b := rfl

theorem cons {b b₁ b' : PartialTree} {e : Event} {es : List Event} (h : b.step e = .ok b₁)
    (hs : b₁.Takes es b') : b.Takes (e :: es) b' := by
  unfold Takes
  rw [foldlM_cons_of_ok h]
  exact hs

theorem append {b b₁ b' : PartialTree} {es fs : List Event} (h : b.Takes es b₁)
    (hs : b₁.Takes fs b') : b.Takes (es ++ fs) b' := by
  unfold Takes at h ⊢
  rw [foldlM_append_of_ok h]
  exact hs

theorem cons_inv {b b' : PartialTree} {e : Event} {es : List Event} (h : b.Takes (e :: es) b') :
    ∃ b₁, b.step e = .ok b₁ ∧ b₁.Takes es b' :=
  ok_of_foldlM_cons_eq_ok h

/-- What one event keeps, a list of events keeps. -/
theorem preserves {P : PartialTree → Prop}
    (hstep : ∀ {b b' : PartialTree} {e : Event}, P b → b.step e = .ok b' → P b')
    {b b' : PartialTree} {es : List Event} (hb : P b) (h : b.Takes es b') : P b' :=
  foldlM_preserves hstep hb h

end Takes

theorem exists_takes {events : List Event} {t : SourceTree}
    (h : SourceTree.ofEvents events = .ok t) :
    ∃ b, empty.Takes events b ∧ b.finish = .ok t := by
  rw [SourceTree.ofEvents_eq_bind] at h
  exact ok_of_bind_eq_ok h

theorem Spaced.step_finish {b : PartialTree} {now : Nat} (hb : b.Spaced now) {o : Pending}
    {rest : List Pending} (ho : b.opened = o :: rest) {stop : Nat} (hstop : now ≤ stop)
    (closed : Bool) : b.step (.finish stop closed) = .ok (b.endInnermost o stop closed) := by
  have hnode := hb.sound.opened o (by simp [ho])
  obtain ⟨k, hk, -⟩ := hnode.kind
  obtain ⟨f, hf, rfl⟩ := SourceTree.face?_of_kind? hk
  have hspan := hnode.start
  rw [SourceTree.span?_of_face? hf] at hspan
  have hstart : f.span.start = o.start := by simpa using hspan
  have := hb.tree.started _ f hf (hb.isElement_of_open (by simp [openIds, ho]) hf)
  simp only [step, ho]
  rw [if_neg (by omega)]

end PartialTree

/-- An event about text before an offset. -/
def Event.Before (offset : Nat) : Event → Prop
  | start _ o => o < offset
  | token _ _ span => span.stop ≤ offset
  | finish stop _ => stop ≤ offset

/-- An event that text behind an offset has a part in. A word may reach back over the offset; a
collection that ends there is unclosed. -/
def Event.After (offset : Nat) : Event → Prop
  | start _ o => offset ≤ o
  | token _ _ span => offset ≤ span.stop
  | finish stop closed => offset < stop ∨ closed = false ∧ offset ≤ stop

theorem Event.Before.mono {e : Event} {offset later : Nat} (h : e.Before offset)
    (hle : offset ≤ later) : e.Before later := by
  cases e <;> simp only [Event.Before] at h ⊢ <;> omega

theorem Event.After.mono {e : Event} {offset later : Nat} (h : e.After later)
    (hle : offset ≤ later) : e.After offset := by
  cases e <;> simp only [Event.After] at h ⊢
  · omega
  · omega
  · rcases h with h | ⟨hc, h⟩
    · exact .inl (by omega)
    · exact .inr ⟨hc, by omega⟩

end PhelAssist
