import PhelAssist.Proofs.Scanning
import PhelAssist.Proofs.Strings

namespace PhelAssist

open Datum (eventsAll)
open Text (byteLength slice? IsBoundary)

namespace Datum

/-- A complete datum with another one behind it. If this holds along a level, only the last datum of
the level can be unclosed. -/
def Follows (a b : Datum) : Prop := a.closed = true ∧ a.span.stop ≤ b.span.start

/-- Whether a datum itself, and not an item of it, has the byte at an offset: a word has all of its
bytes, a collection its brackets. -/
def Occupies (offset : Nat) : Datum → Prop
  | token _ span _ => span.HasByte offset
  | group _ span closed _ => offset = span.start ∨ closed = true ∧ offset + 1 = span.stop

/-- A datum that is where its text is: its span, the text or the brackets there, and its items
between them. Only the end of the text leaves a collection unclosed, and then all around it too. -/
structure Fits (cs : List Char) (d : Datum) : Prop where
  nonempty : d.span.start < d.span.stop
  within : d.span.stop ≤ byteLength cs
  starts : IsBoundary cs d.span.start
  stops : IsBoundary cs d.span.stop
  text : ∀ text, d.text? = some text → slice? cs d.span.start d.span.stop = some text.toList
  opening : ∀ c, d.kind = .collection c →
    slice? cs d.span.start (d.span.start + 1) = some [c.opening]
  closing : ∀ c, d.kind = .collection c → d.closed = true →
    slice? cs (d.span.stop - 1) d.span.stop = some [c.closing]
  items : d.items.Pairwise Follows
  inside : ∀ item ∈ d.items, d.span.start < item.span.start ∧ item.span.stop ≤ d.span.stop ∧
    (d.closed = true → item.span.stop < d.span.stop)
  unclosed : d.closed = false → d.span.stop = byteLength cs
  below : d.closed = true → ∀ e ∈ nodes d.items, e.closed = true

end Datum

theorem Text.exists_char {cs : List Char} {offset : Nat} (h : offset < byteLength cs) :
    ∃ before c after, cs = before ++ c :: after ∧ byteLength before ≤ offset ∧
      offset < byteLength before + c.utf8Size := by
  induction cs generalizing offset with
  | nil => simp at h
  | cons d cs ih =>
    by_cases hd : offset < d.utf8Size
    · exact ⟨[], d, cs, rfl, Nat.zero_le _, by simpa using hd⟩
    · rw [byteLength_cons] at h
      have hrest : offset - d.utf8Size < byteLength cs := by omega
      obtain ⟨before, c, after, rfl, hle, hlt⟩ := ih hrest
      refine ⟨d :: before, c, after, rfl, ?_, ?_⟩
      · rw [byteLength_cons]
        omega
      · rw [byteLength_cons]
        omega

namespace Datum

variable {cs : List Char} {lo mid hi : Nat} {ds : List Datum}

/-- One level of data, from an offset on. -/
structure Row (cs : List Char) (lo : Nat) (ds : List Datum) : Prop where
  starts : ∀ d ∈ ds, lo ≤ d.span.start
  follows : ds.Pairwise Follows
  fits : ∀ d ∈ nodes ds, d.Fits cs

/-- One level of data with nothing left open, between two offsets. -/
structure CompleteRow (cs : List Char) (lo hi : Nat) (ds : List Datum) : Prop
    extends Row cs lo ds where
  le : lo ≤ hi
  stops : ∀ d ∈ ds, d.span.stop ≤ hi
  closed : ∀ d ∈ nodes ds, d.closed = true

theorem completeRow_nil (h : lo ≤ hi) : CompleteRow cs lo hi [] := by
  refine ⟨⟨?_, .nil, ?_⟩, h, ?_, ?_⟩ <;> simp

theorem CompleteRow.mono (h : CompleteRow cs lo mid ds) (hle : mid ≤ hi) :
    CompleteRow cs lo hi ds :=
  ⟨h.toRow, Nat.le_trans h.le hle, fun d hd => Nat.le_trans (h.stops d hd) hle, h.closed⟩

theorem CompleteRow.append (h : CompleteRow cs lo mid ds) {ds' : List Datum}
    (h' : Row cs mid ds') : Row cs lo (ds ++ ds') := by
  refine ⟨?_, ?_, ?_⟩
  · intro d hd
    rcases List.mem_append.1 hd with hd | hd
    · exact h.starts d hd
    · exact Nat.le_trans h.le (h'.starts d hd)
  · refine List.pairwise_append.2 ⟨h.follows, h'.follows, ?_⟩
    intro a ha b hb
    exact ⟨h.closed a (mem_nodes_of_mem ha), Nat.le_trans (h.stops a ha) (h'.starts b hb)⟩
  · intro d hd
    rw [nodes_append] at hd
    rcases List.mem_append.1 hd with hd | hd
    · exact h.fits d hd
    · exact h'.fits d hd

/-- A datum that fits, with all below it. -/
structure Complete (cs : List Char) (d : Datum) : Prop where
  fits : ∀ e ∈ nodes [d], e.Fits cs
  closed : ∀ e ∈ nodes [d], e.closed = true

theorem CompleteRow.concat (h : CompleteRow cs lo mid ds) {d : Datum} (hd : d.Complete cs)
    (hmid : mid ≤ d.span.start) : CompleteRow cs lo d.span.stop (ds ++ [d]) := by
  have hfits := hd.fits d (by simp)
  have hspan := hfits.nonempty
  have hrow : Row cs mid [d] := ⟨by simpa using hmid, List.pairwise_singleton _ _, hd.fits⟩
  have hle := h.le
  refine ⟨h.append hrow, by omega, ?_, ?_⟩
  · intro e he
    rcases List.mem_append.1 he with he | he
    · have hstop := h.stops e he
      omega
    · obtain rfl := List.mem_singleton.1 he
      exact Nat.le_refl _
  · intro e he
    rw [nodes_append] at he
    rcases List.mem_append.1 he with he | he
    · exact h.closed e he
    · exact hd.closed e he

/-- A word is complete where its text stands. -/
theorem complete_token {k : Token} {span : Span} {text : String} (hspan : span.start < span.stop)
    (h : slice? cs span.start span.stop = some text.toList) : (token k span text).Complete cs := by
  obtain ⟨hstart, hstop, hle⟩ := Text.isBoundary_of_slice? h
  refine ⟨fun e he => ?_, fun e he => ?_⟩
  · obtain rfl : e = token k span text := by simpa [Datum.items] using he
    refine ⟨hspan, hle, hstart, hstop, ?_, ?_, ?_, .nil, ?_, ?_, ?_⟩
    · intro t ht
      rwa [← Option.some.inj ht]
    all_goals simp [Datum.kind, Datum.items, Datum.closed]
  · obtain rfl : e = token k span text := by simpa [Datum.items] using he
    rfl

/-- A collection between its brackets is complete if its items are. -/
theorem complete_group {c : Collection} {start offset : Nat} {items : List Datum}
    (hopen : slice? cs start (start + 1) = some [c.opening])
    (hclose : slice? cs offset (offset + 1) = some [c.closing])
    (hitems : CompleteRow cs (start + 1) offset items) :
    (group c ⟨start, offset + 1⟩ true items).Complete cs := by
  obtain ⟨hstart, -, -⟩ := Text.isBoundary_of_slice? hopen
  obtain ⟨-, hstop, hle⟩ := Text.isBoundary_of_slice? hclose
  have hspan := hitems.le
  refine ⟨fun e he => ?_, fun e he => ?_⟩
  · rcases List.mem_cons.1 (by simpa [Datum.items] using he) with rfl | he
    · refine ⟨?_, hle, hstart, hstop, ?_, ?_, ?_, hitems.follows, ?_, ?_, fun _ => hitems.closed⟩
      · simp only [Datum.span]
        omega
      · simp [Datum.text?]
      · intro c' hc
        obtain rfl : c = c' := by simpa [Datum.kind] using hc
        exact hopen
      · intro c' hc _
        obtain rfl : c = c' := by simpa [Datum.kind] using hc
        exact hclose
      · intro item hitem
        have hfirst := hitems.starts item hitem
        have hlast := hitems.stops item hitem
        exact ⟨hfirst, Nat.le_succ_of_le hlast, fun _ => Nat.lt_succ_of_le hlast⟩
      · simp [Datum.closed]
    · exact hitems.fits e he
  · rcases List.mem_cons.1 (by simpa [Datum.items] using he) with rfl | he
    · rfl
    · exact hitems.closed e he

/-- The end of the text leaves a collection unclosed, which is then all of the text from here. -/
theorem row_unclosed {c : Collection} {start : Nat} {items : List Datum}
    (hopen : slice? cs start (start + 1) = some [c.opening]) (hitems : Row cs (start + 1) items) :
    Row cs start [group c ⟨start, byteLength cs⟩ false items] := by
  obtain ⟨hstart, -, hle⟩ := Text.isBoundary_of_slice? hopen
  have hend : IsBoundary cs (byteLength cs) := Text.isBoundary_iff.2 ⟨cs, [], by simp, rfl⟩
  refine ⟨by simp [Datum.span], List.pairwise_singleton _ _, fun e he => ?_⟩
  rcases List.mem_cons.1 (by simpa [Datum.items] using he) with rfl | he
  · refine ⟨hle, Nat.le_refl _, hstart, hend, ?_, ?_, ?_, hitems.follows, ?_, fun _ => rfl, ?_⟩
    · simp [Datum.text?]
    · intro c' hc
      obtain rfl : c = c' := by simpa [Datum.kind] using hc
      exact hopen
    · simp [Datum.closed]
    · intro item hitem
      have hfirst := hitems.starts item hitem
      have hlast := (hitems.fits item (mem_nodes_of_mem hitem)).within
      exact ⟨hfirst, hlast, by simp [Datum.closed]⟩
    · simp [Datum.closed]
  · exact hitems.fits e he

end Datum

namespace Nesting

open Datum (Row CompleteRow Complete)

/-- Open collections, innermost first: each has its bracket, and complete items from there up to the
next inner one. -/
def Stacked (cs : List Char) (forms : List Datum) : List Level → Nat → Prop
  | [], now => CompleteRow cs 0 now forms
  | l :: ls, now =>
    slice? cs l.start (l.start + 1) = some [l.collection.opening] ∧
      CompleteRow cs (l.start + 1) now l.items ∧ Stacked cs forms ls l.start

variable {cs : List Char} {forms : List Datum} {levels : List Level} {now later : Nat}

theorem Stacked.mono (h : Stacked cs forms levels now) (hle : now ≤ later) :
    Stacked cs forms levels later := by
  cases levels with
  | nil => exact CompleteRow.mono h hle
  | cons l ls => exact ⟨h.1, h.2.1.mono hle, h.2.2⟩

theorem Stacked.add {d : Datum} (h : Stacked cs forms levels now) (hd : d.Complete cs)
    (hnow : now ≤ d.span.start) :
    Stacked cs (add ⟨levels, forms⟩ d).forms (add ⟨levels, forms⟩ d).levels d.span.stop := by
  cases levels with
  | nil => exact CompleteRow.concat h hd hnow
  | cons l ls => exact ⟨h.1, h.2.1.concat hd hnow, h.2.2⟩

theorem Stacked.apply {n n' : Nesting} {lex : Lexeme} (h : Stacked cs n.forms n.levels now)
    (happly : n.apply lex = .ok n') (hnow : now ≤ lex.span.start)
    (hspan : lex.span.start < lex.span.stop) (hlex : lex.StandsIn cs) :
    Stacked cs n'.forms n'.levels lex.span.stop := by
  rcases apply_cases happly with ⟨kind, span, text, rfl, rfl⟩ | ⟨c, offset, rfl, rfl⟩ |
    ⟨c, offset, l, ls, rfl, hl, rfl, rfl⟩
  · exact h.add (Datum.complete_token hspan hlex) hnow
  · simp only [Lexeme.StandsIn, Lexeme.span, Lexeme.chars, c.utf8Size_opening] at hlex ⊢
    exact ⟨hlex, Datum.completeRow_nil (Nat.le_refl _), h.mono hnow⟩
  · simp only [Lexeme.StandsIn, Lexeme.span, Lexeme.chars, Collection.utf8Size_closing] at hlex ⊢
    rw [hl] at h
    have hgroup := Datum.complete_group h.1 hlex (h.2.1.mono hnow)
    exact Stacked.add h.2.2 hgroup (Nat.le_refl _)

theorem Stacked.applyAll {n n' : Nesting} {lexemes : List Lexeme}
    (h : Stacked cs n.forms n.levels now) (horder : InOrder now lexemes later)
    (hstands : ∀ lex ∈ lexemes, lex.StandsIn cs)
    (happly : lexemes.foldlM Nesting.apply n = .ok n') : Stacked cs n'.forms n'.levels later := by
  induction lexemes generalizing n now with
  | nil =>
    obtain rfl : n = n' := Except.ok.inj happly
    exact h.mono horder
  | cons lex rest ih =>
    obtain ⟨n₁, hlex, happly⟩ := ok_of_foldlM_cons_eq_ok happly
    have h₁ := h.apply hlex horder.1 horder.2.1 (hstands lex (by simp))
    exact ih h₁ horder.2.2 (fun l hl => hstands l (List.mem_cons_of_mem lex hl)) happly

/-- What is still open ends with the text, from the innermost outwards. -/
theorem Stacked.finish (h : Stacked cs forms levels now) {inner : List Datum}
    (hinner : Row cs now inner) :
    Row cs 0 (forms ++ levels.foldl (fun inner l =>
      [Level.close ⟨l.collection, l.start, l.items ++ inner⟩ (byteLength cs) false]) inner) := by
  induction levels generalizing now inner with
  | nil => exact CompleteRow.append h hinner
  | cons l ls ih => exact ih h.2.2 (Datum.row_unclosed h.1 (h.2.1.append hinner))

end Nesting

/-- The spans of all words of a text. -/
def wordSpans (forms : List Datum) : List Span :=
  ((Datum.nodes forms).filter (·.kind.isWord)).map Datum.span

/-- A byte that no datum needs: it belongs to a blank, or to a comment. -/
def IsSkipped (cs : List Char) (forms : List Datum) (offset : Nat) : Prop :=
  ∃ before c after, cs = before ++ c :: after ∧ byteLength before ≤ offset ∧
    offset < byteLength before + c.utf8Size ∧
    (c ∈ blanks ∨ InComment (wordSpans forms) (before ++ [c]))

/-- Forms that a text consists of: every datum fits, they stand one behind the other on each level,
and no byte is left over. -/
structure IsCover (cs : List Char) (forms : List Datum) : Prop where
  fits : ∀ d ∈ Datum.nodes forms, d.Fits cs
  follows : forms.Pairwise Datum.Follows
  covered : ∀ offset < byteLength cs,
    (∃ d ∈ Datum.nodes forms, d.Occupies offset) ∨ IsSkipped cs forms offset

/-- A datum that a lexeme tells about has all of the lexeme's bytes. -/
theorem Datum.occupies_of_event {d : Datum} {lex : Lexeme} (h : lex.event ∈ d.ownEvents)
    {offset : Nat} (hoffset : lex.span.HasByte offset) : d.Occupies offset := by
  obtain ⟨hle, hlt⟩ := hoffset
  cases lex with
  | token k span text =>
    cases d with
    | token k' span' text' =>
      obtain ⟨-, -, rfl⟩ := by simpa [Lexeme.event, ownEvents] using h
      exact ⟨hle, hlt⟩
    | group c span' closed items => simp [Lexeme.event, ownEvents] at h
  | opening c o =>
    cases d with
    | token k' span' text' => simp [Lexeme.event, ownEvents] at h
    | group c' span' closed items =>
      obtain ⟨-, rfl⟩ := by simpa [Lexeme.event, ownEvents] using h
      simp only [Lexeme.span, c.utf8Size_opening] at hle hlt
      exact .inl (by omega)
  | closing c o =>
    cases d with
    | token k' span' text' => simp [Lexeme.event, ownEvents] at h
    | group c' span' closed items =>
      obtain ⟨hstop, rfl⟩ := by simpa [Lexeme.event, ownEvents] using h
      simp only [Lexeme.span, c.utf8Size_closing] at hle hlt hstop
      exact .inr ⟨rfl, by omega⟩

section

variable {cs : List Char} {lexemes : List Lexeme} {n : Nesting} {stop : Nat}

theorem Nesting.eventsAll_finish_applyAll (h : lexemes.foldlM Nesting.apply .empty = .ok n) :
    eventsAll (n.finish stop) = lexemes.map Lexeme.event ++
      List.replicate n.levels.length (.finish stop false) := by
  rw [eventsAll_finish, events_applyAll h]
  rfl

/-- Every word that is read was a lexeme. -/
theorem Nesting.mem_wordSpans_finish (h : lexemes.foldlM Nesting.apply .empty = .ok n) {span : Span}
    (hspan : span ∈ wordSpans (n.finish stop)) : span ∈ lexemes.map Lexeme.span := by
  obtain ⟨d, hd, rfl⟩ := List.mem_map.1 hspan
  obtain ⟨hd, hword⟩ := List.mem_filter.1 hd
  cases d with
  | group c s closed items => simp [Datum.kind, NodeKind.isWord] at hword
  | token k s text =>
    have htold := Datum.token_mem_nodes_iff.1 hd
    rw [eventsAll_finish_applyAll h] at htold
    rcases List.mem_append.1 htold with htold | htold
    · obtain ⟨lex, hlex, hevent⟩ := List.mem_map.1 htold
      refine List.mem_map.2 ⟨lex, hlex, ?_⟩
      cases lex with
      | token k' s' text' =>
        obtain ⟨-, -, rfl⟩ := by simpa [Lexeme.event] using hevent
        rfl
      | opening c o => simp [Lexeme.event] at hevent
      | closing c o => simp [Lexeme.event] at hevent
    · have := List.eq_of_mem_replicate htold
      contradiction

/-- The lexemes leave no byte over, so neither do the data made of them. -/
theorem IsLexing.covered (hlexing : IsLexing cs lexemes)
    (h : lexemes.foldlM Nesting.apply .empty = .ok n) {offset : Nat}
    (hoffset : offset < byteLength cs) :
    (∃ d ∈ Datum.nodes (n.finish stop), d.Occupies offset) ∨
      IsSkipped cs (n.finish stop) offset := by
  obtain ⟨before, c, after, hcs, hle, hlt⟩ := Text.exists_char hoffset
  rcases hlexing.explained before c after hcs with ⟨lex, hlex, hcovers⟩ | hblank | hcomment
  · have htold : lex.event ∈ eventsAll (n.finish stop) := by
      rw [Nesting.eventsAll_finish_applyAll h]
      exact List.mem_append_left _ (List.mem_map_of_mem hlex)
    obtain ⟨d, hd, hevent⟩ := (Datum.mem_eventsAll_iff _ _).1 htold
    refine .inl ⟨d, hd, Datum.occupies_of_event hevent ⟨?_, ?_⟩⟩
    · exact Nat.le_trans hcovers.1 hle
    · exact Nat.lt_of_lt_of_le hlt hcovers.2
  · exact .inr ⟨before, c, after, hcs, hle, hlt, .inl hblank⟩
  · refine .inr ⟨before, c, after, hcs, hle, hlt, .inr ?_⟩
    exact hcomment.mono fun word hword => Nesting.mem_wordSpans_finish h hword

end

/-- What is read from a text covers it without loss. -/
theorem read_isCover {source : String} {forms : List Datum} (h : read source = .ok forms) :
    IsCover source.toList forms := by
  obtain ⟨lexemes, n, hlexing, hn, rfl⟩ := read_lexemes h
  have hempty : Nesting.Stacked source.toList [] [] 0 := Datum.completeRow_nil (Nat.le_refl 0)
  have hstacked : Nesting.Stacked source.toList n.forms n.levels (byteLength source.toList) :=
    Nesting.Stacked.applyAll (n := .empty) hempty hlexing.order hlexing.stands hn
  have hrow : Datum.Row source.toList 0 (n.finish (byteLength source.toList)) :=
    hstacked.finish ⟨by simp, .nil, by simp⟩
  exact ⟨hrow.fits, hrow.follows, fun offset hoffset => hlexing.covered hn hoffset⟩

/-- A comment with brackets in it, an escaped quote, a word outside ASCII and two collections that
only the end of the text closes. -/
theorem read_isCover_unclosed :
    let forms : List Datum := [.group .list ⟨0, 3⟩ true [.token .symbol ⟨1, 2⟩ "a"],
      .group .list ⟨7, 17⟩ false [.token .literal ⟨8, 13⟩ "\"\\\"(\"",
        .group .vector ⟨14, 17⟩ false [.token .symbol ⟨15, 17⟩ "ü"]]]
    read "(a) ;[\n(\"\\\"(\" [ü" = .ok forms ∧ IsCover "(a) ;[\n(\"\\\"(\" [ü".toList forms := by
  intro forms
  have h : read "(a) ;[\n(\"\\\"(\" [ü" = .ok forms := rfl
  exact ⟨h, read_isCover h⟩

end PhelAssist
