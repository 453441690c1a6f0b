import PhelAssist.Proofs.Feeding
import PhelAssist.Proofs.Offsets

namespace PhelAssist

/-- The characters that separate data without being part of one. -/
def blanks : List Char := [' ', '\t', '\n', '\r', ',']

def Span.HasByte (s : Span) (offset : Nat) : Prop := s.start ≤ offset ∧ offset < s.stop

/-- A text that ends within a comment: behind a semicolon of its own, which belongs to none of the
given words, no line ends. -/
def InComment (words : List Span) (text : List Char) : Prop :=
  ∃ before rest, text = before ++ ';' :: rest ∧ '\n' ∉ rest ∧
    ∀ word ∈ words, ¬ word.HasByte (Text.byteLength before)

theorem CharClass.mem_blanks {c : Char} (h : CharClass.of c = .blank) : c ∈ blanks := by
  unfold CharClass.of at h
  split_ifs at h
  simpa [blanks]

theorem CharClass.eq_semicolon {c : Char} (h : CharClass.of c = .comment) : c = ';' := by
  unfold CharClass.of at h
  split_ifs at h
  assumption

namespace Text

/-- The last character of a text, found by its place. -/
theorem eq_of_append_singleton {cs before after : List Char} {c d : Char}
    (h : cs ++ [c] = before ++ d :: after) (hle : byteLength cs ≤ byteLength before) :
    before = cs ∧ d = c := by
  rcases List.eq_nil_or_concat after with rfl | ⟨after, e, rfl⟩
  · obtain ⟨rfl, hlast⟩ := List.append_inj' h rfl
    exact ⟨rfl, by simpa using hlast.symm⟩
  · have hcs : cs = before ++ d :: after := by
      have : cs ++ [c] = (before ++ d :: after) ++ [e] := by simpa using h
      exact (List.append_inj' this rfl).1
    have hsize := Char.utf8Size_pos d
    simp only [hcs, byteLength_append, byteLength_cons] at hle
    omega

/-- A character that is not the last one stands in the text without the last one. -/
theorem exists_of_append_singleton {cs before after : List Char} {c d : Char}
    (h : cs ++ [c] = before ++ d :: after) (hlt : byteLength before < byteLength cs) :
    ∃ after', cs = before ++ d :: after' := by
  rcases List.eq_nil_or_concat after with rfl | ⟨after, e, rfl⟩
  · obtain ⟨rfl, -⟩ := List.append_inj' h rfl
    omega
  · have : cs ++ [c] = (before ++ d :: after) ++ [e] := by simpa using h
    exact ⟨after, (List.append_inj' this rfl).1⟩

end Text

theorem InComment.mono {words words' : List Span} {text : List Char} (h : InComment words text)
    (hsub : ∀ word ∈ words', word ∈ words) : InComment words' text := by
  obtain ⟨before, rest, htext, hline, hwords⟩ := h
  exact ⟨before, rest, htext, hline, fun word hword => hwords word (hsub word hword)⟩

theorem InComment.push {words : List Span} {text : List Char} (h : InComment words text) {c : Char}
    (hc : c ≠ '\n') : InComment words (text ++ [c]) := by
  obtain ⟨before, rest, rfl, hline, hwords⟩ := h
  exact ⟨before, rest ++ [c], by simp, by simp [hline, hc.symm], hwords⟩

/-- Words behind the last character do not matter for whether it is in a comment. -/
theorem InComment.append {words : List Span} {text : List Char} {c : Char}
    (h : InComment words (text ++ [c])) {later : List Span}
    (hlater : ∀ word ∈ later, Text.byteLength text < word.start) :
    InComment (words ++ later) (text ++ [c]) := by
  obtain ⟨before, rest, htext, hline, hwords⟩ := h
  have hbefore : Text.byteLength before ≤ Text.byteLength text := by
    rcases List.eq_nil_or_concat rest with rfl | ⟨rest, d, rfl⟩
    · exact Nat.le_of_eq (congrArg Text.byteLength (List.append_inj' htext rfl).1.symm)
    · have hparts : text ++ [c] = (before ++ ';' :: rest) ++ [d] := by simpa using htext
      rw [(List.append_inj' hparts rfl).1, Text.byteLength_append]
      omega
  refine ⟨before, rest, htext, hline, fun word hword => ?_⟩
  rcases List.mem_append.1 hword with hword | hword
  · exact hwords word hword
  · have hstart := hlater word hword
    intro hbyte
    have := hbyte.1
    omega

namespace InOrder

variable {now mid later : Nat} {a b : List Lexeme}

theorem append (ha : InOrder now a mid) (hb : InOrder mid b later) :
    InOrder now (a ++ b) later := by
  induction a generalizing now with
  | nil =>
    cases b with
    | nil => exact Nat.le_trans ha hb
    | cons lex rest => exact ⟨Nat.le_trans ha hb.1, hb.2⟩
  | cons lex rest ih => exact ⟨ha.1, ha.2.1, ih ha.2.2⟩

theorem le (h : InOrder now a later) : now ≤ later := by
  induction a generalizing now with
  | nil => exact h
  | cons lex rest ih =>
    have hrest := ih h.2.2
    have hstart := h.1
    have hspan := h.2.1
    omega

theorem bounds (h : InOrder now a later) {lex : Lexeme} (hlex : lex ∈ a) :
    now ≤ lex.span.start ∧ lex.span.stop ≤ later := by
  induction a generalizing now with
  | nil => simp at hlex
  | cons first rest ih =>
    have hstart := h.1
    have hspan := h.2.1
    rcases List.mem_cons.1 hlex with rfl | hlex
    · exact ⟨hstart, h.2.2.le⟩
    · have hbounds := ih h.2.2 hlex
      exact ⟨by omega, hbounds.2⟩

end InOrder

/-- The text of a lexeme. -/
def Lexeme.chars : Lexeme → List Char
  | opening c _ => [c.opening]
  | closing c _ => [c.closing]
  | token _ _ text => text.toList

def Lexeme.StandsIn (cs : List Char) (lex : Lexeme) : Prop :=
  Text.slice? cs lex.span.start lex.span.stop = some lex.chars

/-- Why the character behind `before` is where it is: it belongs to a lexeme, or it is skipped. -/
def Explained (lexemes : List Lexeme) (before : List Char) (c : Char) : Prop :=
  (∃ lex ∈ lexemes,
    lex.span.Covers ⟨Text.byteLength before, Text.byteLength before + c.utf8Size⟩) ∨
  c ∈ blanks ∨ InComment (lexemes.map Lexeme.span) (before ++ [c])

theorem Explained.append {lexemes new : List Lexeme} {before : List Char} {c : Char}
    (h : Explained lexemes before c)
    (hnew : ∀ lex ∈ new, Text.byteLength before < lex.span.start) :
    Explained (lexemes ++ new) before c := by
  rcases h with ⟨lex, hlex, hcovers⟩ | hblank | hcomment
  · exact .inl ⟨lex, List.mem_append_left new hlex, hcovers⟩
  · exact .inr (.inl hblank)
  · refine .inr (.inr ?_)
    rw [List.map_append]
    refine hcomment.append fun word hword => ?_
    obtain ⟨lex, hlex, rfl⟩ := List.mem_map.1 hword
    exact hnew lex hlex

/-- What has been seen of a word or string is the text up to here. -/
def ScanMode.StandsIn (lexemes : List Lexeme) (seen : List Char) : ScanMode → Prop
  | between => True
  | comment => InComment (lexemes.map Lexeme.span) seen
  | word start text | quoted start text _ =>
    Text.slice? seen start (Text.byteLength seen) = some text.toList

/-- A scan that has come to the end of a text with some lexemes: they stand in the text one behind
the other, and no character before a word in progress is lost. -/
structure Scanned (seen : List Char) (lexemes : List Lexeme) (mode : ScanMode) : Prop where
  begun : mode.Begun (Text.byteLength seen)
  order : InOrder 0 lexemes (mode.mark (Text.byteLength seen))
  stands : ∀ lex ∈ lexemes, lex.StandsIn seen
  pending : mode.StandsIn lexemes seen
  explained : ∀ before c after, seen = before ++ c :: after →
    Text.byteLength before < mode.mark (Text.byteLength seen) → Explained lexemes before c

namespace Scanned

open Text (byteLength)

variable {seen : List Char} {lexemes : List Lexeme} {mode : ScanMode}

theorem start : Scanned [] [] .between where
  begun := trivial
  order := Nat.le_refl 0
  stands := by simp
  pending := trivial
  explained := by simp

theorem mark_le (h : Scanned seen lexemes mode) :
    mode.mark (byteLength seen) ≤ byteLength seen := by
  have hbegun := h.begun
  cases mode with
  | between => exact Nat.le_refl _
  | comment => exact Nat.le_refl _
  | word start text => exact Nat.le_of_lt hbegun
  | quoted start text escaped => exact Nat.le_of_lt hbegun.1

/-- One more character, which may complete lexemes: what is left to explain is the text since the
last mark. -/
theorem grow (h : Scanned seen lexemes mode) {c : Char} {new : List Lexeme} {mode' : ScanMode}
    (hgives : ScanMode.Gives (mode.mark (byteLength seen)) (byteLength seen) c (new, mode'))
    (hstands : ∀ lex ∈ new, lex.StandsIn (seen ++ [c]))
    (hpending : mode'.StandsIn (lexemes ++ new) (seen ++ [c]))
    (hexplained : ∀ before d after, seen ++ [c] = before ++ d :: after →
      mode.mark (byteLength seen) ≤ byteLength before →
      byteLength before < mode'.mark (byteLength seen + c.utf8Size) →
      Explained (lexemes ++ new) before d) :
    Scanned (seen ++ [c]) (lexemes ++ new) mode' := by
  have hlength : byteLength (seen ++ [c]) = byteLength seen + c.utf8Size := by simp
  refine ⟨?_, ?_, ?_, hpending, ?_⟩
  · rw [hlength]
    exact hgives.begun
  · rw [hlength]
    exact h.order.append hgives.order
  · intro lex hlex
    rcases List.mem_append.1 hlex with hlex | hlex
    · exact Text.slice?_append (h.stands lex hlex) [c]
    · exact hstands lex hlex
  · rw [hlength]
    intro before d after hseen hlt
    by_cases hold : byteLength before < mode.mark (byteLength seen)
    · obtain ⟨after', hseen'⟩ :=
        Text.exists_of_append_singleton hseen (Nat.lt_of_lt_of_le hold h.mark_le)
      refine (h.explained before d after' hseen' hold).append fun lex hlex => ?_
      exact Nat.lt_of_lt_of_le hold (hgives.order.bounds hlex).1
    · exact hexplained before d after hseen (Nat.le_of_not_lt hold) hlt

/-- The end of a word, found by what follows it or by the end of the text. -/
theorem endWord {first : Nat} {text : String} (h : Scanned seen lexemes (.word first text)) :
    Scanned seen (lexemes ++ [.ofWord first (byteLength seen) text]) .between := by
  have hfirst : first < byteLength seen := h.begun
  refine ⟨trivial, ?_, ?_, trivial, ?_⟩
  · exact h.order.append ⟨Nat.le_refl first, hfirst, Nat.le_refl _⟩
  · intro lex hlex
    rcases List.mem_append.1 hlex with hlex | hlex
    · exact h.stands lex hlex
    · obtain rfl := List.mem_singleton.1 hlex
      exact h.pending
  · intro before c after hseen _
    by_cases hold : byteLength before < first
    · refine (h.explained before c after hseen hold).append fun lex hlex => ?_
      obtain rfl := List.mem_singleton.1 hlex
      exact hold
    · refine .inl ⟨_, List.mem_append_right _ (List.mem_singleton_self _), ?_, ?_⟩
      · exact Nat.le_of_not_lt hold
      · simp only [Lexeme.ofWord, Lexeme.span, hseen, Text.byteLength_append, Text.byteLength_cons]
        omega

/-- A character behind which the mark does not move: all is as before, but for what is pending. -/
theorem goOn (h : Scanned seen lexemes mode) {c : Char} {mode' : ScanMode}
    (hgives : ScanMode.Gives (mode.mark (byteLength seen)) (byteLength seen) c ([], mode'))
    (hmark : mode'.mark (byteLength seen + c.utf8Size) = mode.mark (byteLength seen))
    (hpending : mode'.StandsIn lexemes (seen ++ [c])) : Scanned (seen ++ [c]) lexemes mode' := by
  have hgrown : Scanned (seen ++ [c]) (lexemes ++ []) mode' := by
    refine h.grow hgives (by simp) (by simpa using hpending) fun before d after _ hle hlt => ?_
    rw [hmark] at hlt
    exact absurd hlt (Nat.not_lt.2 hle)
  rwa [List.append_nil] at hgrown

/-- A character that is skipped between lexemes: it has to be a blank or in a comment. -/
theorem skip (h : Scanned seen lexemes mode) {c : Char} {mode' : ScanMode}
    (hgives : ScanMode.Gives (mode.mark (byteLength seen)) (byteLength seen) c ([], mode'))
    (hmark : mode.mark (byteLength seen) = byteLength seen)
    (hpending : mode'.StandsIn lexemes (seen ++ [c]))
    (hc : c ∈ blanks ∨ InComment (lexemes.map Lexeme.span) (seen ++ [c])) :
    Scanned (seen ++ [c]) lexemes mode' := by
  have hgrown : Scanned (seen ++ [c]) (lexemes ++ []) mode' := by
    refine h.grow hgives (by simp) (by simpa using hpending) fun before d after hseen hle _ => ?_
    rw [hmark] at hle
    obtain ⟨rfl, rfl⟩ := Text.eq_of_append_singleton hseen hle
    rw [List.append_nil]
    exact .inr hc
  rwa [List.append_nil] at hgrown

/-- A bracket is a lexeme by itself. -/
theorem bracket (h : Scanned seen lexemes .between) {c : Char} {lex : Lexeme}
    (hgives : ScanMode.Gives (byteLength seen) (byteLength seen) c ([lex], .between))
    (hspan : lex.span = ⟨byteLength seen, byteLength seen + c.utf8Size⟩)
    (hchars : lex.chars = [c]) : Scanned (seen ++ [c]) (lexemes ++ [lex]) .between := by
  refine h.grow hgives ?_ trivial fun before d after hseen hle _ => ?_
  · intro l hl
    obtain rfl := List.mem_singleton.1 hl
    rw [Lexeme.StandsIn, hspan, hchars]
    exact Text.slice?_last seen c
  · obtain ⟨rfl, rfl⟩ := Text.eq_of_append_singleton hseen hle
    refine .inl ⟨lex, by simp, ?_⟩
    rw [hspan]
    exact ⟨Nat.le_refl _, Nat.le_refl _⟩

/-- A semicolon between lexemes is in none of them. -/
theorem inComment (h : Scanned seen lexemes .between) :
    InComment (lexemes.map Lexeme.span) (seen ++ [';']) := by
  refine ⟨seen, [], rfl, by simp, ?_⟩
  intro word hword hbyte
  obtain ⟨lex, hlex, rfl⟩ := List.mem_map.1 hword
  have hstop : lex.span.stop ≤ byteLength seen := (h.order.bounds hlex).2
  exact Nat.not_lt.2 hstop hbyte.2

theorem enter (h : Scanned seen lexemes .between) (c : Char) :
    Scanned (seen ++ [c]) (lexemes ++ (ScanMode.enter (byteLength seen) c).1)
      (ScanMode.enter (byteLength seen) c).2 := by
  have hgives := ScanMode.enter_gives (byteLength seen) c
  have hslice := Text.slice?_last seen c
  unfold ScanMode.enter at hgives ⊢
  cases hc : CharClass.of c with
  | blank =>
    simp only [hc, List.append_nil] at hgives ⊢
    exact h.skip hgives rfl trivial (.inl (CharClass.mem_blanks hc))
  | comment =>
    simp only [hc, List.append_nil] at hgives ⊢
    obtain rfl := CharClass.eq_semicolon hc
    exact h.skip hgives rfl h.inComment (.inr h.inComment)
  | opening k =>
    simp only [hc] at hgives ⊢
    obtain rfl := CharClass.eq_opening hc
    exact h.bracket hgives rfl rfl
  | closing k =>
    simp only [hc] at hgives ⊢
    obtain rfl := CharClass.eq_closing hc
    exact h.bracket hgives rfl rfl
  | quote =>
    simp only [hc, List.append_nil] at hgives ⊢
    exact h.goOn hgives rfl (by simpa [ScanMode.StandsIn] using hslice)
  | word =>
    simp only [hc, List.append_nil] at hgives ⊢
    exact h.goOn hgives rfl (by simpa [ScanMode.StandsIn] using hslice)

theorem stepComment (h : Scanned seen lexemes .comment) (c : Char) :
    Scanned (seen ++ [c]) lexemes (if c = '\n' then .between else .comment) := by
  have hgives := ScanMode.step_gives h.begun c
  by_cases hc : c = '\n'
  · simp only [ScanMode.step, hc, if_true] at hgives ⊢
    exact h.skip hgives rfl trivial (.inl (by decide))
  · simp only [ScanMode.step, hc, if_false] at hgives ⊢
    have hcomment := InComment.push h.pending hc
    exact h.skip hgives rfl hcomment (.inr hcomment)

/-- The quote that ends a string makes a lexeme of all since the first one. -/
theorem endString {first : Nat} {text : String} {escaped : Bool} {c : Char}
    (h : Scanned seen lexemes (.quoted first text escaped))
    (hgives : ScanMode.Gives first (byteLength seen) c
      ([.token .literal ⟨first, byteLength seen + c.utf8Size⟩ (text.push c)], .between)) :
    Scanned (seen ++ [c])
      (lexemes ++ [.token .literal ⟨first, byteLength seen + c.utf8Size⟩ (text.push c)])
      .between := by
  refine h.grow hgives ?_ trivial fun before d after hseen hle _ => ?_
  · intro lex hlex
    obtain rfl := List.mem_singleton.1 hlex
    simpa [Lexeme.StandsIn, Lexeme.span, Lexeme.chars] using Text.slice?_push h.pending c
  · have hlength := congrArg byteLength hseen
    simp only [Text.byteLength_append, Text.byteLength_cons, Text.byteLength_nil] at hlength
    refine .inl ⟨_, List.mem_append_right _ (List.mem_singleton_self _), hle, ?_⟩
    simp only [Lexeme.span]
    omega

/-- One character of any text: a scan loses nothing. -/
theorem step (h : Scanned seen lexemes mode) (c : Char) :
    Scanned (seen ++ [c]) (lexemes ++ (mode.step (byteLength seen) c).1)
      (mode.step (byteLength seen) c).2 := by
  have hgives := ScanMode.step_gives h.begun c
  cases mode with
  | between => exact h.enter c
  | comment =>
    simp only [ScanMode.step, List.append_nil]
    exact h.stepComment c
  | word first text =>
    by_cases hc : CharClass.of c = .word
    · simp only [ScanMode.step, hc, if_true, List.append_nil] at hgives ⊢
      have hslice := Text.slice?_push h.pending c
      exact h.goOn hgives rfl (by simpa [ScanMode.StandsIn] using hslice)
    · -- the word ends before this character
      have hword := h.endWord.enter c
      simp only [ScanMode.step, hc, if_false]
      rwa [List.append_assoc] at hword
  | quoted first text escaped =>
    have hslice := Text.slice?_push h.pending c
    have hpending : ∀ e, (ScanMode.quoted first (text.push c) e).StandsIn lexemes (seen ++ [c]) := by
      intro e
      simpa [ScanMode.StandsIn] using hslice
    simp only [ScanMode.step] at hgives ⊢
    split_ifs at hgives ⊢
    · rw [List.append_nil]
      exact h.goOn hgives rfl (hpending false)
    · rw [List.append_nil]
      exact h.goOn hgives rfl (hpending true)
    · exact h.endString hgives
    · rw [List.append_nil]
      exact h.goOn hgives rfl (hpending false)

end Scanned

/-- The lexemes of a whole text: each stands where it says, and what no lexeme takes is blank or in
a comment. -/
structure IsLexing (cs : List Char) (lexemes : List Lexeme) : Prop where
  order : InOrder 0 lexemes (Text.byteLength cs)
  stands : ∀ lex ∈ lexemes, lex.StandsIn cs
  explained : ∀ before c after, cs = before ++ c :: after → Explained lexemes before c

theorem Scanned.isLexing {cs : List Char} {lexemes : List Lexeme} {mode : ScanMode}
    (h : Scanned cs lexemes mode) (hmark : mode.mark (Text.byteLength cs) = Text.byteLength cs) :
    IsLexing cs lexemes := by
  refine ⟨hmark ▸ h.order, h.stands, fun before c after hcs => ?_⟩
  refine h.explained before c after hcs ?_
  have hsize := Char.utf8Size_pos c
  rw [hmark, hcs, Text.byteLength_append, Text.byteLength_cons]
  omega

namespace Reader

/-- A reader has scanned a text, and has put its lexemes together. -/
structure HasRead (seen : List Char) (lexemes : List Lexeme) (r : Reader) : Prop where
  offset : r.offset = Text.byteLength seen
  scanned : Scanned seen lexemes r.mode
  nesting : lexemes.foldlM Nesting.apply .empty = .ok r.nesting

theorem hasRead_start : start.HasRead [] [] := ⟨rfl, Scanned.start, rfl⟩

/-- A character adds lexemes behind those that have been read. -/
theorem HasRead.step {seen : List Char} {lexemes : List Lexeme} {r r' : Reader} {c : Char}
    (h : r.HasRead seen lexemes) (hstep : r.step c = .ok r') :
    ∃ new, r'.HasRead (seen ++ [c]) (lexemes ++ new) ∧
      InOrder (r.mode.mark r.offset) new (r'.mode.mark r'.offset) := by
  obtain ⟨n, hn, rfl⟩ := ok_of_map_eq_ok hstep
  refine ⟨(r.mode.step r.offset c).1, ⟨?_, ?_, ?_⟩, ?_⟩
  · simp [h.offset]
  · rw [h.offset]
    exact h.scanned.step c
  · rw [foldlM_append_of_ok h.nesting]
    exact hn
  · rw [h.offset]
    exact (ScanMode.step_gives h.scanned.begun c).order

theorem HasRead.run {seen cs : List Char} {lexemes : List Lexeme} {r r' : Reader}
    (h : r.HasRead seen lexemes) (hrun : cs.foldlM Reader.step r = .ok r') :
    ∃ new, r'.HasRead (seen ++ cs) (lexemes ++ new) ∧
      InOrder (r.mode.mark r.offset) new (r'.mode.mark r'.offset) := by
  induction cs generalizing r seen lexemes with
  | nil =>
    obtain rfl : r = r' := Except.ok.inj hrun
    exact ⟨[], by simpa using h, Nat.le_refl _⟩
  | cons c cs ih =>
    obtain ⟨r₁, hstep, hrun⟩ := ok_of_foldlM_cons_eq_ok hrun
    obtain ⟨new₁, h₁, horder₁⟩ := h.step hstep
    obtain ⟨new, h', horder⟩ := ih h₁ hrun
    exact ⟨new₁ ++ new, by simpa using h', horder₁.append horder⟩

/-- The end of the text ends the last word, if there is one. -/
theorem HasRead.finish {cs : List Char} {lexemes : List Lexeme} {r : Reader}
    (h : r.HasRead cs lexemes) {forms : List Datum} (hforms : r.finish = .ok forms) :
    ∃ new n, IsLexing cs (lexemes ++ new) ∧ (lexemes ++ new).foldlM Nesting.apply .empty = .ok n ∧
      forms = n.finish (Text.byteLength cs) ∧ InOrder (r.mode.mark r.offset) new r.offset := by
  have hscanned := h.scanned
  rw [← h.offset]
  unfold Reader.finish at hforms
  cases hmode : r.mode with
  | quoted start text escaped => simp [hmode] at hforms
  | between =>
    rw [hmode] at hscanned hforms
    refine ⟨[], r.nesting, ?_, ?_, (Except.ok.inj hforms).symm, Nat.le_refl _⟩
    · simpa using hscanned.isLexing rfl
    · simpa using h.nesting
  | comment =>
    rw [hmode] at hscanned hforms
    refine ⟨[], r.nesting, ?_, ?_, (Except.ok.inj hforms).symm, Nat.le_refl _⟩
    · simpa using hscanned.isLexing rfl
    · simpa using h.nesting
  | word start text =>
    rw [hmode] at hscanned hforms
    obtain ⟨n, hn, rfl⟩ := ok_of_map_eq_ok hforms
    refine ⟨_, n, hscanned.endWord.isLexing rfl, ?_, rfl, ?_⟩
    · rw [foldlM_append_of_ok h.nesting, ← h.offset, foldlM_cons_of_ok hn]
      rfl
    · rw [h.offset]
      exact ⟨Nat.le_refl _, hscanned.begun, Nat.le_refl _⟩

end Reader

/-- What is read comes from the lexemes of the text. -/
theorem read_lexemes {source : String} {forms : List Datum} (h : read source = .ok forms) :
    ∃ lexemes n, IsLexing source.toList lexemes ∧
      lexemes.foldlM Nesting.apply .empty = .ok n ∧
      forms = n.finish (Text.byteLength source.toList) := by
  obtain ⟨r, hrun, hfinish⟩ := ok_of_bind_eq_ok h
  obtain ⟨lexemes, hread, -⟩ := Reader.hasRead_start.run hrun
  obtain ⟨new, n, hlexing, hn, hforms, -⟩ := hread.finish hfinish
  exact ⟨_, n, hlexing, hn, hforms⟩

end PhelAssist
