import PhelAssist.Proofs.Concatenation
import PhelAssist.Proofs.Scanning
import PhelAssist.Proofs.Truncation

namespace PhelAssist

/-- A fold that fails does so at one place, and has taken all before it. -/
theorem exists_of_foldlM_eq_error {ε α β : Type} {f : β → α → Except ε β} {l : List α} {x : β}
    {e : ε} (h : l.foldlM f x = .error e) :
    ∃ before a after y,
      l = before ++ a :: after ∧ before.foldlM f x = .ok y ∧ f y a = .error e := by
  induction l generalizing x with
  | nil => contradiction
  | cons a l ih =>
    cases hfirst : f x a with
    | error e' =>
      have he : e' = e := by
        rw [List.foldlM_cons, hfirst] at h
        exact Except.error.inj h
      exact ⟨[], a, l, x, rfl, rfl, he ▸ hfirst⟩
    | ok x' =>
      rw [foldlM_cons_of_ok hfirst] at h
      obtain ⟨before, b, after, y, hl, hbefore, hb⟩ := ih h
      refine ⟨a :: before, b, after, y, by rw [hl, List.cons_append], ?_, hb⟩
      rw [foldlM_cons_of_ok hfirst, hbefore]

theorem foldlM_cons_of_error {ε α β : Type} {f : β → α → Except ε β} {a : α} {x : β} {e : ε}
    (h : f x a = .error e) (l : List α) : (a :: l).foldlM f x = .error e := by
  rw [List.foldlM_cons, h]
  rfl

/-- An error about a closing bracket: nothing is open there, or something else is. -/
def ReadError.Blames (e : ReadError) (c : Collection) (offset : Nat) : Prop :=
  e = .unmatched c offset ∨ e = .mismatched c offset

theorem ReadError.Blames.unique {e : ReadError} {c c' : Collection} {offset offset' : Nat}
    (h : e.Blames c offset) (h' : e.Blames c' offset') : c = c' ∧ offset = offset' := by
  rcases h with rfl | rfl
  · simpa [Blames] using h'
  · simpa [Blames] using h'

def ScanMode.isQuoted : ScanMode → Bool
  | quoted .. => true
  | _ => false

/-- An event about anything but a string around an offset. -/
def Event.Spares (offset : Nat) : Event → Prop
  | token (.token .literal) text span => text.toList.head? = some '"' → ¬ span.Surrounds offset
  | _ => True

namespace ScanMode

/-- Nothing that a scan has begun can become a string around the offset. -/
def Spares (offset : Nat) : ScanMode → Prop
  | between | comment => True
  | word _ text => text.toList.head? ≠ some '"'
  | quoted start _ _ => offset ≤ start

variable {offset now : Nat} {c : Char}

theorem enter_spares (hnow : offset ≤ now) :
    (∀ lex ∈ (enter now c).1, lex.event.Spares offset) ∧ (enter now c).2.Spares offset := by
  unfold enter
  cases hc : CharClass.of c with
  | blank => simp [Spares]
  | comment => simp [Spares]
  | opening k => simp [Spares, Lexeme.event, Event.Spares]
  | closing k => simp [Spares, Lexeme.event, Event.Spares]
  | quote => simp [Spares, hnow]
  | word =>
    have hquote : c ≠ '"' := by
      intro heq
      rw [heq] at hc
      contradiction
    simp [Spares, hquote]

theorem spares_ofWord {text : String} (htext : text.toList.head? ≠ some '"') (start stop : Nat) :
    (Lexeme.ofWord start stop text).event.Spares offset := by
  unfold Lexeme.ofWord Lexeme.event
  cases Token.ofWord text.toList with
  | literal => exact fun hquote => absurd hquote htext
  | symbol => trivial
  | keyword => trivial

theorem step_spares {mode : ScanMode} (h : mode.Spares offset) (hnow : offset ≤ now) :
    (∀ lex ∈ (mode.step now c).1, lex.event.Spares offset) ∧ (mode.step now c).2.Spares offset := by
  cases mode with
  | between => exact enter_spares hnow
  | comment =>
    unfold step
    by_cases hc : c = '\n' <;> simp [hc, Spares]
  | word start text =>
    have htext : text.toList.head? ≠ some '"' := h
    by_cases hc : CharClass.of c = .word
    · simp only [step, hc, if_true, Spares]
      refine ⟨by simp, ?_⟩
      intro hpush
      cases hlist : text.toList with
      | nil =>
        simp only [String.toList_push, hlist, List.nil_append, List.head?_cons,
          Option.some.injEq] at hpush
        rw [hpush] at hc
        contradiction
      | cons d ds =>
        rw [hlist] at htext
        simp only [String.toList_push, hlist, List.cons_append, List.head?_cons] at hpush
        exact htext hpush
    · have henter := enter_spares (c := c) hnow
      simp only [step, hc, if_false]
      refine ⟨?_, henter.2⟩
      intro lex hlex
      rcases List.mem_cons.1 hlex with rfl | hlex
      · exact spares_ofWord htext start now
      · exact henter.1 lex hlex
  | quoted start text escaped =>
    have hstart : offset ≤ start := h
    have hspan : ∀ stop, ¬ Span.Surrounds ⟨start, stop⟩ offset :=
      fun stop hsurrounds => Nat.not_lt.2 hstart hsurrounds.1
    simp only [step]
    split_ifs
    · exact ⟨by simp, hstart⟩
    · exact ⟨by simp, hstart⟩
    · refine ⟨?_, trivial⟩
      intro lex hlex
      obtain rfl := List.mem_singleton.1 hlex
      exact fun _ => hspan _
    · exact ⟨by simp, hstart⟩

/-- A closing bracket is read only outside comments and strings, and where it stands. -/
theorem eq_closing_of_mem_enter {k : Collection} {o : Nat}
    (h : Lexeme.closing k o ∈ (enter now c).1) : c = k.closing ∧ o = now := by
  unfold enter at h
  cases hc : CharClass.of c with
  | closing k' =>
    simp only [hc, List.mem_singleton, Lexeme.closing.injEq] at h
    obtain ⟨rfl, rfl⟩ := h
    exact ⟨CharClass.eq_closing hc, rfl⟩
  | blank => simp [hc] at h
  | comment => simp [hc] at h
  | opening k' => simp [hc] at h
  | quote => simp [hc] at h
  | word => simp [hc] at h

end ScanMode

namespace Nesting

/-- Only closing brackets are refused. -/
theorem exists_closing_of_apply_eq_error {n : Nesting} {lex : Lexeme} {e : ReadError}
    (h : n.apply lex = .error e) : ∃ k o, lex = .closing k o ∧ e.Blames k o := by
  cases lex with
  | token kind span text => contradiction
  | opening k o => contradiction
  | closing k o =>
    refine ⟨k, o, rfl, ?_⟩
    unfold apply at h
    cases hlevels : n.levels with
    | nil =>
      simp only [hlevels, Except.error.injEq] at h
      exact .inl h.symm
    | cons l ls =>
      simp only [hlevels] at h
      split at h
      · contradiction
      · exact .inr (Except.error.inj h).symm

end Nesting

namespace Reader

/-- A reader that is done with an offset, and has met no string around it. -/
structure Spares (r : Reader) (offset : Nat) : Prop where
  reached : offset ≤ r.offset
  mode : r.mode.Spares offset
  events : ∀ e ∈ r.nesting.events, e.Spares offset

theorem Spares.step {r r' : Reader} {offset : Nat} {c : Char} (h : r.Spares offset)
    (hstep : r.step c = .ok r') : r'.Spares offset := by
  obtain ⟨n, hn, rfl⟩ := ok_of_map_eq_ok hstep
  have hscan := ScanMode.step_spares (c := c) h.mode h.reached
  refine ⟨Nat.le_trans h.reached (Nat.le_add_right _ _), hscan.2, ?_⟩
  intro e he
  rw [Nesting.events_applyAll hn] at he
  rcases List.mem_append.1 he with he | he
  · exact h.events e he
  · obtain ⟨lex, hlex, rfl⟩ := List.mem_map.1 he
    exact hscan.1 lex hlex

theorem Spares.run {r r' : Reader} {offset : Nat} {cs : List Char} (h : r.Spares offset)
    (hrun : cs.foldlM Reader.step r = .ok r') : r'.Spares offset :=
  foldlM_preserves Spares.step h hrun

theorem Spares.events_of_finish {r : Reader} {offset : Nat} (h : r.Spares offset)
    {forms : List Datum} (hfinish : r.finish = .ok forms) :
    ∀ e ∈ Datum.eventsAll forms, e.Spares offset := by
  have hends : ∀ (n : Nesting), (∀ e ∈ n.events, e.Spares offset) →
      ∀ e ∈ Datum.eventsAll (n.finish r.offset), e.Spares offset := by
    intro n hn e he
    rw [Nesting.eventsAll_finish] at he
    rcases List.mem_append.1 he with he | he
    · exact hn e he
    · rw [List.eq_of_mem_replicate he]
      trivial
  have hmode := h.mode
  unfold Reader.finish at hfinish
  cases hm : r.mode with
  | quoted start text escaped => simp [hm] at hfinish
  | between =>
    simp only [hm, Except.ok.injEq] at hfinish
    exact hfinish ▸ hends r.nesting h.events
  | comment =>
    simp only [hm, Except.ok.injEq] at hfinish
    exact hfinish ▸ hends r.nesting h.events
  | word start text =>
    rw [hm] at hmode hfinish
    obtain ⟨n, hn, rfl⟩ := ok_of_map_eq_ok hfinish
    apply hends n
    intro e he
    rw [Nesting.events_apply hn] at he
    rcases List.mem_append.1 he with he | he
    · exact h.events e he
    · rw [List.mem_singleton.1 he]
      exact ScanMode.spares_ofWord hmode start r.offset

theorem Spares.not_insideString {r : Reader} {offset : Nat} (h : r.Spares offset)
    {forms : List Datum} (hfinish : r.finish = .ok forms) : ¬ InsideString forms offset := by
  intro hinside
  obtain ⟨d, hd, hstring, hspan⟩ := hinside
  cases d with
  | group k span closed items => contradiction
  | token kind span text =>
    have htold := h.events_of_finish hfinish _ (Datum.token_mem_nodes_iff.1 hd)
    cases kind with
    | symbol => contradiction
    | keyword => contradiction
    | literal => exact htold (by simpa [Datum.isString] using hstring) hspan

theorem spares_start : start.Spares 0 where
  reached := Nat.le_refl 0
  mode := trivial
  events := by simp [start, Nesting.empty, Nesting.events]

/-- A reader outside of strings is in none: all that it is done with lies before it. -/
theorem spares_of_run {seen : List Char} {r : Reader} (hrun : seen.foldlM step start = .ok r)
    (hmode : r.mode.isQuoted = false) : r.Spares r.offset := by
  obtain ⟨lexemes, hread, -⟩ := hasRead_start.run hrun
  -- from the first character on, a word in progress does not start with a quote
  have hword := (spares_start.run hrun).mode
  refine ⟨Nat.le_refl _, ?_, ?_⟩
  · cases hm : r.mode with
    | between => trivial
    | comment => trivial
    | word start text => rwa [hm] at hword
    | quoted start text escaped => simp [hm, ScanMode.isQuoted] at hmode
  · intro e he
    rw [Nesting.events_applyAll hread.nesting] at he
    obtain ⟨lex, hlex, rfl⟩ : ∃ lex ∈ lexemes, lex.event = e := by
      simpa [Nesting.empty, Nesting.events] using he
    have hstop : lex.span.stop ≤ r.offset := by
      rw [hread.offset]
      exact Nat.le_trans (hread.scanned.order.bounds hlex).2 hread.scanned.mark_le
    cases lex with
    | opening k o => trivial
    | closing k o => trivial
    | token kind span text =>
      cases kind with
      | symbol => trivial
      | keyword => trivial
      | literal => exact fun _ hspan => Nat.not_lt.2 hstop hspan.2

/-- The cursor of a text that can be read stands inside a string exactly if the reader is in one
when it comes there. -/
theorem insideString_iff {before after : List Char} {r : Reader}
    (hbefore : before.foldlM step start = .ok r) {forms : List Datum}
    (hafter : (after.foldlM step r).bind finish = .ok forms) :
    InsideString forms r.offset ↔ r.mode.isQuoted = true := by
  obtain ⟨r', hrun, hfinish⟩ := ok_of_bind_eq_ok hafter
  constructor
  · intro hinside
    rw [← Bool.not_eq_false]
    intro hmode
    exact ((spares_of_run hbefore hmode).run hrun).not_insideString hfinish hinside
  · intro hmode
    obtain ⟨b, -, -, hfed, -, -⟩ := fed_start.run hbefore
    have hbegun := hfed.begun
    cases hm : r.mode with
    | quoted start text escaped =>
      rw [hm] at hbegun
      have hsees : r.SeesString r.offset :=
        ⟨Nat.le_refl _, .inl ⟨start, text, escaped, hm, hbegun⟩⟩
      exact (hsees.run hrun).insideString hfinish
    | between => simp [hm, ScanMode.isQuoted] at hmode
    | comment => simp [hm, ScanMode.isQuoted] at hmode
    | word start text => simp [hm, ScanMode.isQuoted] at hmode

theorem offset_of_run {cs : List Char} {r : Reader} (h : cs.foldlM step start = .ok r) :
    r.offset = Text.byteLength cs := by
  obtain ⟨-, -, -, -, hoffset, -⟩ := fed_start.run h
  exact hoffset.trans (Nat.zero_add _)

theorem read_of_run {cs : List Char} {r : Reader} (h : cs.foldlM step start = .ok r) :
    read (String.ofList cs) = r.finish := by
  rw [read, readChars, String.toList_ofList, h]
  rfl

/-- The end of a text is refused inside a string, and nowhere else. -/
theorem finish_cases (r : Reader) :
    (r.mode.isQuoted = false ∧ ∃ forms, r.finish = .ok forms) ∨
      r.mode.isQuoted = true ∧ ∃ start, r.finish = .error (.unterminatedString start) := by
  cases hm : r.mode with
  | between => exact .inl ⟨rfl, by simp [finish, hm]⟩
  | comment => exact .inl ⟨rfl, by simp [finish, hm]⟩
  | word start text =>
    exact .inl ⟨rfl, by simp [finish, hm, Nesting.apply, Lexeme.ofWord, Except.map]⟩
  | quoted start text escaped => exact .inr ⟨rfl, start, by simp [finish, hm]⟩

/-- A character is refused only if it is a closing bracket, and then what stands before it is
complete. -/
theorem blames_of_step_eq_error {r : Reader} {c : Char} {e : ReadError} (h : r.step c = .error e) :
    ∃ k, c = k.closing ∧ e.Blames k r.offset ∧ r.mode.isQuoted = false := by
  have hfold : (r.mode.step r.offset c).1.foldlM Nesting.apply r.nesting = .error e := by
    unfold Reader.step at h
    cases hn : (r.mode.step r.offset c).1.foldlM Nesting.apply r.nesting with
    | ok n => simp [hn, Except.map] at h
    | error e' =>
      simp only [hn, Except.map, Except.error.injEq] at h
      rw [h]
  obtain ⟨taken, lex, left, n, hlexemes, -, happly⟩ := exists_of_foldlM_eq_error hfold
  obtain ⟨k, o, rfl, hblames⟩ := Nesting.exists_closing_of_apply_eq_error happly
  have hmem : Lexeme.closing k o ∈ (r.mode.step r.offset c).1 := by simp [hlexemes]
  cases hm : r.mode with
  | between =>
    rw [hm] at hmem
    obtain ⟨hc, rfl⟩ := ScanMode.eq_closing_of_mem_enter hmem
    exact ⟨k, hc, hblames, rfl⟩
  | comment =>
    rw [hm] at hmem
    simp [ScanMode.step] at hmem
  | word start text =>
    simp only [hm, ScanMode.step] at hmem
    split at hmem
    · simp at hmem
    · rcases List.mem_cons.1 hmem with hword | hmem
      · contradiction
      · obtain ⟨hc, rfl⟩ := ScanMode.eq_closing_of_mem_enter hmem
        exact ⟨k, hc, hblames, rfl⟩
  | quoted start text escaped =>
    simp only [hm, ScanMode.step] at hmem
    split_ifs at hmem <;> simp at hmem

end Reader

/-- A text that cannot be read ends inside a string, or it has a closing bracket that is wrong
where it stands: what comes before the bracket can be read, and whatever may follow the bracket,
the error is the same. -/
theorem read_eq_error_cases {source : String} {e : ReadError} (h : read source = .error e) :
    (∃ start, e = .unterminatedString start) ∨
      ∃ before k after forms, source.toList = before ++ k.closing :: after ∧
        e.Blames k (Text.byteLength before) ∧ read (String.ofList before) = .ok forms ∧
        ∀ rest, read (String.ofList (before ++ k.closing :: rest)) = .error e := by
  unfold read Reader.readChars at h
  cases hrun : source.toList.foldlM Reader.step .start with
  | ok r =>
    rw [hrun] at h
    rcases r.finish_cases with ⟨-, forms, hfinish⟩ | ⟨-, start, hfinish⟩
    · have hok : r.finish = .error e := h
      rw [hfinish] at hok
      contradiction
    · exact .inl ⟨start, Except.error.inj (h.symm.trans hfinish)⟩
  | error e' =>
    rw [hrun] at h
    obtain rfl : e' = e := Except.error.inj h
    obtain ⟨before, c, after, r, hsource, hbefore, hstep⟩ := exists_of_foldlM_eq_error hrun
    obtain ⟨k, rfl, hblames, hmode⟩ := Reader.blames_of_step_eq_error hstep
    rw [Reader.offset_of_run hbefore] at hblames
    rcases r.finish_cases with ⟨-, forms, hfinish⟩ | ⟨hquoted, -⟩
    · refine .inr ⟨before, k, after, forms, hsource, hblames, ?_, ?_⟩
      · rw [Reader.read_of_run hbefore, hfinish]
      · intro rest
        rw [read, Reader.readChars, String.toList_ofList, foldlM_append_of_ok hbefore,
          foldlM_cons_of_error hstep]
        rfl
    · rw [hmode] at hquoted
      contradiction

/-- Half-typed text. A text that can be read can be read up to every place that is not inside a
string, and up to a place inside a string it only lacks the quote that ends the string. A closing
bracket that is wrong stays wrong: the text before it can be read, and no text behind it mends
it. -/
theorem read_halfTyped :
    (∀ {source : String} {forms : List Datum} {offset : Nat} {before after : List Char},
      read source = .ok forms → Text.cut? source.toList offset = some (before, after) →
      (¬ InsideString forms offset → ∃ forms', read (String.ofList before) = .ok forms') ∧
        (InsideString forms offset →
          ∃ start, read (String.ofList before) = .error (.unterminatedString start))) ∧
    ∀ {source : String} {e : ReadError} {k : Collection} {offset : Nat},
      read source = .error e → e.Blames k offset →
      (∀ more : String, read (source ++ more) = .error e) ∧
        ∃ before after forms, source.toList = before ++ k.closing :: after ∧
          Text.byteLength before = offset ∧ read (String.ofList before) = .ok forms := by
  constructor
  · intro source forms offset before after h hcut
    obtain ⟨hsource, hlength⟩ := Text.cut?_eq_some_iff.1 hcut
    obtain ⟨r, hbefore, hafter⟩ := read_append hsource h
    obtain rfl : r.offset = offset := (Reader.offset_of_run hbefore).trans hlength
    rw [Reader.insideString_iff hbefore hafter, Reader.read_of_run hbefore]
    rcases r.finish_cases with ⟨hmode, hforms⟩ | ⟨hmode, hstart⟩
    · exact ⟨fun _ => hforms, fun hquoted => absurd (hmode.symm.trans hquoted) (by decide)⟩
    · exact ⟨fun hquoted => absurd hmode hquoted, fun _ => hstart⟩
  · intro source e k offset h hblames
    rcases read_eq_error_cases h with ⟨start, rfl⟩ |
      ⟨before, k', after, forms, hsource, hblames', hread, hfinal⟩
    · rcases hblames with hblames | hblames <;> contradiction
    · obtain ⟨rfl, rfl⟩ := hblames'.unique hblames
      refine ⟨?_, before, after, forms, hsource, rfl, hread⟩
      intro more
      have htext : source ++ more =
          String.ofList (before ++ k'.closing :: (after ++ more.toList)) :=
        String.ext (by simp [hsource])
      rw [htext]
      exact hfinal _

/-- A cut in a comment behind a bracket, a cut between the quotes of a string, and a bracket that
closes another collection than the open one. -/
theorem read_halfTyped_comment :
    let forms : List Datum := [.group .list ⟨0, 13⟩ false [.token .symbol ⟨1, 2⟩ "a",
      .token .literal ⟨3, 6⟩ "\"(\"", .group .vector ⟨11, 13⟩ false [.token .symbol ⟨12, 13⟩ "b"]]]
    read "(a \"(\" ;)\n [b" = .ok forms ∧
      ¬ InsideString forms 9 ∧ (∃ forms', read "(a \"(\" ;)" = .ok forms') ∧
      InsideString forms 5 ∧ (∃ start, read "(a \"(" = .error (.unterminatedString start)) ∧
      read "(a]b" = .error (.mismatched .vector 2) ∧
      ∀ more : String, read ("(a]b" ++ more) = .error (.mismatched .vector 2) := by
  intro forms
  have h : read "(a \"(\" ;)\n [b" = .ok forms := rfl
  have hcomment : Text.cut? "(a \"(\" ;)\n [b".toList 9 =
      some ("(a \"(\" ;)".toList, "\n [b".toList) := rfl
  have hstring : Text.cut? "(a \"(\" ;)\n [b".toList 5 =
      some ("(a \"(".toList, "\" ;)\n [b".toList) := rfl
  have hnot : ¬ InsideString forms 9 := by decide
  have hin : InsideString forms 5 := by decide
  have herror : read "(a]b" = .error (.mismatched .vector 2) := rfl
  have hread := (read_halfTyped.1 h hcomment).1 hnot
  have hunterminated := (read_halfTyped.1 h hstring).2 hin
  rw [String.ofList_toList] at hread hunterminated
  exact ⟨h, hnot, hread, hin, hunterminated, herror, (read_halfTyped.2 herror (.inr rfl)).1⟩

end PhelAssist
