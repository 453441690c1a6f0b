import PhelAssist.Datum.Marked
import PhelAssist.Proofs.Cover
import PhelAssist.Proofs.Cutting

namespace PhelAssist

/-- A text in which the quotes pair up around strings, those in comments included. -/
inductive PairedQuotes : List Char → Prop
  | nil : PairedQuotes []
  | plain {c : Char} {rest : List Char} (hquote : c ≠ '"') (h : PairedQuotes rest) :
      PairedQuotes (c :: rest)
  | string {body rest : List Char} (hbody : StringBody body) (h : PairedQuotes rest) :
      PairedQuotes ('"' :: (body ++ '"' :: rest))

/-- A text that starts inside a string: it ends the string, and behind it the quotes pair up. -/
def EndsString (cs : List Char) : Prop :=
  ∃ body rest, cs = body ++ '"' :: rest ∧ StringBody body ∧ PairedQuotes rest

theorem pairedQuotes_cons_iff {c : Char} {cs : List Char} (hc : c ≠ '"') :
    PairedQuotes (c :: cs) ↔ PairedQuotes cs := by
  constructor
  · intro h
    cases h with
    | plain _ h => exact h
    | string _ _ => contradiction
  · intro h
    exact .plain hc h

theorem pairedQuotes_quote_iff {cs : List Char} : PairedQuotes ('"' :: cs) ↔ EndsString cs := by
  constructor
  · intro h
    cases h with
    | plain hquote _ => contradiction
    | string hbody h => exact ⟨_, _, rfl, hbody, h⟩
  · intro h
    obtain ⟨body, rest, rfl, hbody, h⟩ := h
    exact .string hbody h

theorem not_endsString_nil : ¬ EndsString [] := by
  intro h
  obtain ⟨body, rest, hcs, -⟩ := h
  simp at hcs

theorem endsString_quote_iff {cs : List Char} : EndsString ('"' :: cs) ↔ PairedQuotes cs := by
  constructor
  · intro h
    obtain ⟨body, rest, hcs, hbody, h⟩ := h
    cases hbody with
    | nil =>
      obtain rfl : cs = rest := by simpa using hcs
      exact h
    | plain hquote _ _ =>
      have hfirst := (List.cons.inj hcs).1
      exact absurd hfirst.symm hquote
    | escape _ _ => simp at hcs
  · intro h
    exact ⟨[], cs, rfl, .nil, h⟩

theorem endsString_backslash_iff {cs : List Char} :
    EndsString ('\\' :: cs) ↔ ∃ c rest, cs = c :: rest ∧ EndsString rest := by
  constructor
  · intro h
    obtain ⟨body, rest, hcs, hbody, h⟩ := h
    cases hbody with
    | nil => simp at hcs
    | plain _ hback _ =>
      have hfirst := (List.cons.inj hcs).1
      exact absurd hfirst.symm hback
    | @escape c body hbody =>
      exact ⟨c, body ++ '"' :: rest, (List.cons.inj hcs).2, body, rest, rfl, hbody, h⟩
  · intro h
    obtain ⟨c, cs, rfl, body, rest, rfl, hbody, h⟩ := h
    exact ⟨'\\' :: c :: body, rest, rfl, .escape c hbody, h⟩

theorem endsString_cons_iff {c : Char} {cs : List Char} (hquote : c ≠ '"') (hback : c ≠ '\\') :
    EndsString (c :: cs) ↔ EndsString cs := by
  constructor
  · intro h
    obtain ⟨body, rest, hcs, hbody, h⟩ := h
    cases hbody with
    | nil => exact absurd (List.cons.inj hcs).1 hquote
    | @plain d body _ _ hbody => exact ⟨body, rest, (List.cons.inj hcs).2, hbody, h⟩
    | escape _ _ => exact absurd (List.cons.inj hcs).1 hback
  · intro h
    obtain ⟨body, rest, rfl, hbody, h⟩ := h
    exact ⟨c :: body, rest, rfl, .plain hquote hback hbody, h⟩

namespace Unmarking

/-- `u'` is what `u` becomes over a text that has no marker for it. -/
structure Keeps (u : Unmarking) (cs : List Char) (u' : Unmarking) : Prop where
  source : u'.source.toList = u.source.toList ++ cs
  offset : u'.offset = u.offset + Text.byteLength cs
  cursor : u'.cursor = u.cursor

theorem Keeps.trans {u u₁ u' : Unmarking} {cs cs' : List Char} (h : u.Keeps cs u₁)
    (h' : u₁.Keeps cs' u') : u.Keeps (cs ++ cs') u' where
  source := by rw [h'.source, h.source, List.append_assoc]
  offset := by rw [h'.offset, h.offset, Text.byteLength_append, Nat.add_assoc]
  cursor := h'.cursor.trans h.cursor

section

variable {u : Unmarking} {c : Char}

theorem step_plain (hquoted : u.quoted = false) (hc : c ≠ '|') :
    u.step c = .ok { u.keep c with quoted := c = '"' } := by
  simp [step, hquoted, hc]

theorem step_escaped (hquoted : u.quoted = true) (hescaped : u.escaped = true) :
    u.step c = .ok { u.keep c with escaped := false } := by
  simp [step, hquoted, hescaped]

theorem step_quoted (hquoted : u.quoted = true) (hescaped : u.escaped = false) :
    u.step c = .ok { u.keep c with escaped := c = '\\', quoted := c ≠ '"' } := by
  simp [step, hquoted, hescaped]

/-- Only outside of strings a bar is a marker. -/
theorem exists_step (h : u.quoted = true ∨ c ≠ '|') :
    ∃ u', u.step c = .ok u' ∧ u.Keeps [c] u' := by
  cases hquoted : u.quoted with
  | false =>
    have hc : c ≠ '|' := h.resolve_left (by simp [hquoted])
    exact ⟨_, step_plain hquoted hc, by simp [keep], by simp [keep], rfl⟩
  | true =>
    cases hescaped : u.escaped with
    | false => exact ⟨_, step_quoted hquoted hescaped, by simp [keep], by simp [keep], rfl⟩
    | true => exact ⟨_, step_escaped hquoted hescaped, by simp [keep], by simp [keep], rfl⟩

end

theorem exists_run (u : Unmarking) {cs : List Char} (hbar : '|' ∉ cs) :
    ∃ u', cs.foldlM step u = .ok u' ∧ u.Keeps cs u' := by
  induction cs generalizing u with
  | nil => exact ⟨u, rfl, by simp, by simp, rfl⟩
  | cons c cs ih =>
    obtain ⟨hc, hcs⟩ := List.ne_and_not_mem_of_not_mem_cons hbar
    obtain ⟨u₁, hstep, hfirst⟩ := exists_step (u := u) (.inr hc.symm)
    obtain ⟨u', hrun, hrest⟩ := ih u₁ hcs
    refine ⟨u', ?_, hfirst.trans hrest⟩
    rw [foldlM_cons_of_ok hstep, hrun]

/-- What has to follow for the text to end outside of strings. -/
def Wants (u : Unmarking) (cs : List Char) : Prop :=
  match u.quoted, u.escaped with
  | false, _ => PairedQuotes cs
  | true, false => EndsString cs
  | true, true => ∃ c rest, cs = c :: rest ∧ EndsString rest

/-- Nothing is escaped outside of strings. -/
def Consistent (u : Unmarking) : Prop := u.quoted = false → u.escaped = false

/-- A character that is no marker is the first of those that were wanted. -/
theorem wants_step {u u' : Unmarking} {c : Char} (hu : u.Consistent) (hc : c ≠ '|')
    (h : u.step c = .ok u') (cs : List Char) :
    u'.Consistent ∧ (u'.Wants cs ↔ u.Wants (c :: cs)) := by
  obtain ⟨source, offset, cursor, quoted, escaped⟩ := u
  cases quoted with
  | false =>
    obtain rfl : escaped = false := hu rfl
    obtain rfl := Except.ok.inj ((step_plain rfl hc).symm.trans h)
    by_cases hquote : c = '"'
    · subst hquote
      simp [Consistent, Wants, keep, pairedQuotes_quote_iff]
    · simp [Consistent, Wants, keep, hquote, pairedQuotes_cons_iff hquote]
  | true =>
    cases escaped with
    | true =>
      obtain rfl := Except.ok.inj ((step_escaped rfl rfl).symm.trans h)
      simp [Consistent, Wants, keep]
    | false =>
      obtain rfl := Except.ok.inj ((step_quoted rfl rfl).symm.trans h)
      by_cases hquote : c = '"'
      · subst hquote
        simp [Consistent, Wants, endsString_quote_iff]
      · by_cases hback : c = '\\'
        · subst hback
          simp [Consistent, Wants, endsString_backslash_iff]
        · simp [Consistent, Wants, hquote, hback, endsString_cons_iff hquote hback]

theorem quoted_iff_wants {u u' : Unmarking} {cs : List Char} (hu : u.Consistent)
    (hbar : '|' ∉ cs) (h : cs.foldlM step u = .ok u') : u'.quoted = false ↔ u.Wants cs := by
  induction cs generalizing u with
  | nil =>
    obtain rfl : u = u' := Except.ok.inj h
    obtain ⟨source, offset, cursor, quoted, escaped⟩ := u
    cases quoted with
    | false => simp [Wants, PairedQuotes.nil]
    | true => cases escaped <;> simp [Wants, not_endsString_nil]
  | cons c cs ih =>
    obtain ⟨hc, hcs⟩ := List.ne_and_not_mem_of_not_mem_cons hbar
    obtain ⟨u₁, hstep, h⟩ := ok_of_foldlM_cons_eq_ok h
    obtain ⟨hu₁, hwants⟩ := wants_step hu hc.symm hstep cs
    rw [ih hu₁ hcs h, hwants]

/-- The search for the marker sees a string at the end of a text unless the quotes pair up. -/
theorem quoted_iff_pairedQuotes {u : Unmarking} {cs : List Char} (hbar : '|' ∉ cs)
    (h : cs.foldlM step start = .ok u) : u.quoted = false ↔ PairedQuotes cs :=
  quoted_iff_wants (fun _ => rfl) hbar h

end Unmarking

/-- A marker is taken out where the quotes before it pair up, and stays in the text elsewhere. -/
theorem unmark_insert {before after : List Char} (hbar : '|' ∉ before ++ after) :
    (PairedQuotes before → unmark (String.ofList (before ++ '|' :: after)) =
      .ok (String.ofList (before ++ after), some (Text.byteLength before))) ∧
    (¬ PairedQuotes before → unmark (String.ofList (before ++ '|' :: after)) =
      .ok (String.ofList (before ++ '|' :: after), none)) := by
  obtain ⟨hbefore, hafter⟩ := not_or.1 (mt List.mem_append.2 hbar)
  obtain ⟨u, hrun, hkeeps⟩ := Unmarking.start.exists_run hbefore
  have hquoted := Unmarking.quoted_iff_pairedQuotes hbefore hrun
  have hwhole : unmark (String.ofList (before ++ '|' :: after)) =
      (('|' :: after).foldlM Unmarking.step u).map fun u => (u.source, u.cursor) := by
    rw [unmark, String.toList_ofList, foldlM_append_of_ok hrun]
  rw [hwhole]
  constructor
  · intro hpaired
    have hplain := hquoted.2 hpaired
    have hmark : u.step '|' = .ok { u with cursor := some u.offset } := by
      have hcursor : u.cursor = none := hkeeps.cursor
      simp [Unmarking.step, hplain, hcursor]
    obtain ⟨u', hrest, hkeeps'⟩ :=
      Unmarking.exists_run { u with cursor := some u.offset } hafter
    have hsource : u'.source = String.ofList (before ++ after) := by
      apply String.ext
      rw [hkeeps'.source, String.toList_ofList]
      exact congrArg (· ++ after) hkeeps.source
    have hcursor : u'.cursor = some (Text.byteLength before) := by
      rw [hkeeps'.cursor, hkeeps.offset]
      exact congrArg some (Nat.zero_add _)
    rw [foldlM_cons_of_ok hmark, hrest, ← hsource, ← hcursor]
    rfl
  · intro hpaired
    have hopen : u.quoted = true := by
      rw [← Bool.not_eq_false, hquoted]
      exact hpaired
    obtain ⟨u₁, hbarStep, hkeeps₁⟩ := Unmarking.exists_step (c := '|') (.inl hopen)
    obtain ⟨u', hrest, hkeeps'⟩ := u₁.exists_run hafter
    have hall := (hkeeps.trans hkeeps₁).trans hkeeps'
    have hsource : u'.source = String.ofList (before ++ '|' :: after) := by
      apply String.ext
      rw [hall.source, String.toList_ofList, List.append_assoc]
      rfl
    have hcursor : u'.cursor = none := hall.cursor
    rw [foldlM_cons_of_ok hbarStep, hrest, ← hsource, ← hcursor]
    rfl

def ScanMode.isEscaped : ScanMode → Bool
  | quoted _ _ escaped => escaped
  | _ => false

/-- The search for the marker and a scan agree on whether they are inside a string. -/
structure Unmarking.Agrees (u : Unmarking) (mode : ScanMode) : Prop where
  quoted : u.quoted = mode.isQuoted
  escaped : u.escaped = mode.isEscaped

namespace Unmarking.Agrees

variable {u u' : Unmarking} {c : Char}

theorem enter (h : u.Agrees .between) (hc : c ≠ '|') (hstep : u.step c = .ok u') (offset : Nat) :
    u'.Agrees (ScanMode.enter offset c).2 := by
  obtain rfl := Except.ok.inj ((step_plain h.quoted hc).symm.trans hstep)
  have hescaped : u.escaped = false := h.escaped
  unfold ScanMode.enter
  cases hclass : CharClass.of c with
  | quote =>
    obtain rfl := CharClass.eq_quote hclass
    exact ⟨rfl, hescaped⟩
  | blank | comment | opening | closing | word =>
    have hquote : c ≠ '"' := by
      intro heq
      rw [heq] at hclass
      contradiction
    exact ⟨by simp [hquote, ScanMode.isQuoted], hescaped⟩

/-- They part only over a quote in a comment. -/
theorem step {mode : ScanMode} (h : u.Agrees mode) (hc : c ≠ '|')
    (hcomment : c = '"' → mode ≠ .comment) (hstep : u.step c = .ok u') (offset : Nat) :
    u'.Agrees (mode.step offset c).2 := by
  cases mode with
  | between => exact h.enter hc hstep offset
  | comment =>
    obtain rfl := Except.ok.inj ((step_plain h.quoted hc).symm.trans hstep)
    have hquote : c ≠ '"' := fun heq => hcomment heq rfl
    have hescaped : u.escaped = false := h.escaped
    unfold ScanMode.step
    by_cases hline : c = '\n'
    · simp only [hline, if_true]
      exact ⟨by simp [ScanMode.isQuoted], hescaped⟩
    · simp only [hline, if_false]
      exact ⟨by simp [hquote, ScanMode.isQuoted], hescaped⟩
  | word start text =>
    have hplain : u.Agrees .between := ⟨h.quoted, h.escaped⟩
    unfold ScanMode.step
    by_cases hclass : CharClass.of c = .word
    · have henter := hplain.enter hc hstep offset
      simp only [hclass, if_true]
      unfold ScanMode.enter at henter
      rw [hclass] at henter
      exact ⟨henter.quoted, henter.escaped⟩
    · simp only [hclass, if_false]
      exact hplain.enter hc hstep offset
  | quoted start text escaped =>
    cases escaped with
    | true =>
      obtain rfl := Except.ok.inj ((step_escaped h.quoted h.escaped).symm.trans hstep)
      exact ⟨h.quoted, rfl⟩
    | false =>
      obtain rfl := Except.ok.inj ((step_quoted h.quoted h.escaped).symm.trans hstep)
      by_cases hback : c = '\\'
      · subst hback
        exact ⟨rfl, rfl⟩
      · by_cases hquote : c = '"'
        · subst hquote
          exact ⟨rfl, rfl⟩
        · simp only [ScanMode.step, hback, hquote, Bool.false_eq_true, if_false]
          exact ⟨by simp [hquote, ScanMode.isQuoted], by simp [ScanMode.isEscaped]⟩

theorem run {r r' : Reader} {cs : List Char} (h : u.Agrees r.mode) (hbar : '|' ∉ cs)
    (hcomment : ∀ a b r₁, cs = a ++ '"' :: b → a.foldlM Reader.step r = .ok r₁ →
      r₁.mode ≠ .comment)
    (hu : cs.foldlM Unmarking.step u = .ok u') (hr : cs.foldlM Reader.step r = .ok r') :
    u'.Agrees r'.mode := by
  induction cs generalizing u r with
  | nil =>
    obtain rfl : u = u' := Except.ok.inj hu
    obtain rfl : r = r' := Except.ok.inj hr
    exact h
  | cons c cs ih =>
    obtain ⟨hc, hcs⟩ := List.ne_and_not_mem_of_not_mem_cons hbar
    obtain ⟨u₁, hustep, hu⟩ := ok_of_foldlM_cons_eq_ok hu
    obtain ⟨r₁, hrstep, hr⟩ := ok_of_foldlM_cons_eq_ok hr
    have h₁ : u₁.Agrees r₁.mode := by
      obtain ⟨n, -, rfl⟩ := ok_of_map_eq_ok hrstep
      apply h.step hc.symm _ hustep
      intro hquote
      exact hcomment [] cs r (by rw [hquote, List.nil_append]) rfl
    apply ih h₁ hcs _ hu hr
    intro a b r₂ hsplit hrun
    exact hcomment (c :: a) b r₂ (by rw [hsplit, List.cons_append])
      ((foldlM_cons_of_ok hrstep a).trans hrun)

end Unmarking.Agrees

/-- Where the reader is in a comment, the text so far ends in one. -/
theorem Reader.inComment_of_run {seen rest : List Char} {r : Reader}
    (hseen : seen.foldlM step start = .ok r) {forms : List Datum}
    (hrest : (rest.foldlM step r).bind finish = .ok forms) (hmode : r.mode = .comment) :
    InComment (wordSpans forms) seen := by
  obtain ⟨lexemes, hread, -⟩ := hasRead_start.run hseen
  obtain ⟨r', hrun, hfinish⟩ := ok_of_bind_eq_ok hrest
  obtain ⟨new, hread', horder⟩ := hread.run hrun
  obtain ⟨last, n, -, hn, rfl, horder'⟩ := hread'.finish hfinish
  have hpending : InComment (lexemes.map Lexeme.span) seen := by
    have hstands := hread.scanned.pending
    rwa [hmode] at hstands
  -- the words to come start behind the comment
  have hlater : InOrder (Text.byteLength seen) (new ++ last) r'.offset := by
    have hmark := horder.append horder'
    rw [hmode, offset_of_run hseen] at hmark
    exact hmark
  obtain ⟨before, tail, hsplit, hline, hwords⟩ := hpending
  refine ⟨before, tail, hsplit, hline, ?_⟩
  intro word hword hbyte
  obtain ⟨lex, hlex, rfl⟩ := List.mem_map.1 (Nesting.mem_wordSpans_finish hn hword)
  rw [List.append_assoc, List.mem_append] at hlex
  rcases hlex with hlex | hlex
  · exact hwords _ (List.mem_map_of_mem hlex) hbyte
  · have hstart := (hlater.bounds hlex).1
    have hle := hbyte.1
    rw [hsplit, Text.byteLength_append, Text.byteLength_cons] at hstart
    have hsize := Char.utf8Size_pos ';'
    omega

/-- A text without quotes in its comments. -/
def QuoteFreeComments (words : List Span) (text : List Char) : Prop :=
  ∀ a b, text = a ++ '"' :: b → ¬ InComment words a

/-- Without quotes in comments, the quotes before a place pair up exactly outside of strings. -/
theorem pairedQuotes_iff_not_insideString {before after : List Char} {r : Reader}
    (hbefore : before.foldlM Reader.step .start = .ok r) {forms : List Datum}
    (hafter : (after.foldlM Reader.step r).bind Reader.finish = .ok forms) (hbar : '|' ∉ before)
    (hcomments : QuoteFreeComments (wordSpans forms) before) :
    PairedQuotes before ↔ ¬ InsideString forms r.offset := by
  obtain ⟨u, hu, -⟩ := Unmarking.start.exists_run hbar
  have hagrees : u.Agrees r.mode := by
    apply Unmarking.Agrees.run (r := .start) ⟨rfl, rfl⟩ hbar _ hu hbefore
    intro a b r₁ hsplit hrun hmode
    have hrest : (('"' :: b ++ after).foldlM Reader.step r₁).bind Reader.finish = .ok forms := by
      have hall : ('"' :: b).foldlM Reader.step r₁ = .ok r := by
        rw [← hbefore, hsplit, foldlM_append_of_ok hrun]
      rw [foldlM_append_of_ok hall, hafter]
    exact hcomments a b hsplit (Reader.inComment_of_run hrun hrest hmode)
  rw [Reader.insideString_iff hbefore hafter, ← Unmarking.quoted_iff_pairedQuotes hbar hu,
    hagrees.quoted, Bool.not_eq_true]

theorem readMarked_of_unmark {marked source : String} {cursor : Option Nat}
    (h : unmark marked = .ok (source, cursor)) :
    readMarked marked = (read source).map fun forms => ⟨source, cursor, forms⟩ := by
  rw [readMarked, h]
  cases hread : read source with
  | error e => simp [hread, bind, Except.bind, Except.map]
  | ok forms => simp [hread, bind, Except.bind, Except.map, pure, Except.pure]

/-- A marker that is put into a text which can be read. If no comment before it holds a quote, then
it is taken for the cursor, and the text is read as before, exactly outside of strings. Quotes in
comments count as well: in any text, the marker is taken for the cursor exactly if all quotes
before it pair up, and it stays a part of the text if they do not. -/
theorem readMarked_insert {source : String} {forms : List Datum} {offset : Nat}
    {before after : List Char} (h : read source = .ok forms) (hbar : '|' ∉ source.toList)
    (hcut : Text.cut? source.toList offset = some (before, after)) :
    let marked := String.ofList (before ++ '|' :: after)
    (QuoteFreeComments (wordSpans forms) before →
      (readMarked marked = .ok ⟨source, some offset, forms⟩ ↔ ¬ InsideString forms offset)) ∧
    (readMarked marked = .ok ⟨source, some offset, forms⟩ ↔ PairedQuotes before) ∧
    (¬ PairedQuotes before →
      readMarked marked = (read marked).map fun data => ⟨marked, none, data⟩) := by
  intro marked
  obtain ⟨hsource, hlength⟩ := Text.cut?_eq_some_iff.1 hcut
  have hwhole : String.ofList (before ++ after) = source := by
    rw [← hsource, String.ofList_toList]
  rw [hsource] at hbar
  obtain ⟨htaken, hleft⟩ := unmark_insert hbar
  have hstays : ¬ PairedQuotes before →
      readMarked marked = (read marked).map fun data => ⟨marked, none, data⟩ :=
    fun hpaired => readMarked_of_unmark (hleft hpaired)
  have hiff : readMarked marked = .ok ⟨source, some offset, forms⟩ ↔ PairedQuotes before := by
    constructor
    · intro hread
      by_contra hpaired
      rw [hstays hpaired] at hread
      obtain ⟨data, -, heq⟩ := ok_of_map_eq_ok hread
      cases congrArg MarkedSource.cursor heq
    · intro hpaired
      rw [readMarked_of_unmark (htaken hpaired), hwhole, hlength, h]
      rfl
  refine ⟨?_, hiff, hstays⟩
  intro hcomments
  obtain ⟨r, hbefore, hafter⟩ := read_append hsource h
  have hoffset : r.offset = offset := (Reader.offset_of_run hbefore).trans hlength
  have hbarBefore : '|' ∉ before := fun hmem => hbar (List.mem_append_left after hmem)
  rw [hiff, pairedQuotes_iff_not_insideString hbefore hafter hbarBefore hcomments, hoffset]

/-- A marker in a comment, behind a string that holds a quote. -/
theorem readMarked_insert_comment :
    let forms : List Datum := [.group .list ⟨0, 14⟩ true [.token .symbol ⟨1, 2⟩ "f",
      .token .literal ⟨3, 7⟩ "\"\\\"\"", .token .symbol ⟨12, 13⟩ "x"]]
    read "(f \"\\\"\" ;ä\nx)" = .ok forms ∧ '|' ∉ "(f \"\\\"\" ;ä\nx)".toList ∧
      QuoteFreeComments (wordSpans forms) "(f \"\\\"\" ;ä".toList ∧ ¬ InsideString forms 11 ∧
      readMarked "(f \"\\\"\" ;ä|\nx)" = .ok ⟨"(f \"\\\"\" ;ä\nx)", some 11, forms⟩ := by
  intro forms
  have h : read "(f \"\\\"\" ;ä\nx)" = .ok forms := rfl
  have hbar : '|' ∉ "(f \"\\\"\" ;ä\nx)".toList := by decide
  have hcut : Text.cut? "(f \"\\\"\" ;ä\nx)".toList 11 =
      some ("(f \"\\\"\" ;ä".toList, "\nx)".toList) := rfl
  have hinside : ¬ InsideString forms 11 := by decide
  have hcomments : QuoteFreeComments (wordSpans forms) "(f \"\\\"\" ;ä".toList := by
    -- the comment comes behind the last quote
    intro a b hsplit hcomment
    obtain ⟨before, rest, rfl, -⟩ := hcomment
    have hlast : "(f \"\\\"\" ".toList ++ ";ä".toList =
        (before ++ [';']) ++ (rest ++ '"' :: b) := by simpa using hsplit
    have hquote : '"' ∈ ";ä".toList := by
      rcases List.append_eq_append_iff.1 hlast with ⟨c, -, hc⟩ | ⟨c, hc, -⟩
      · rw [hc]
        simp
      · have hsemicolon : ';' ∈ "(f \"\\\"\" ".toList := by
          rw [hc]
          simp
        exact absurd hsemicolon (by decide)
    exact absurd hquote (by decide)
  have hread := ((readMarked_insert h hbar hcut).1 hcomments).2 hinside
  exact ⟨h, hbar, hcomments, hinside, hread⟩

/-- A quote in a comment hides the marker on the next line, which is outside of all strings. -/
theorem readMarked_hidden :
    read "; \"\nx" = .ok [.token .symbol ⟨4, 5⟩ "x"] ∧ '|' ∉ "; \"\nx".toList ∧
      Text.cut? "; \"\nx".toList 4 = some ("; \"\n".toList, "x".toList) ∧
      ¬ InsideString [.token .symbol ⟨4, 5⟩ "x"] 4 ∧
      readMarked "; \"\n|x" = .ok ⟨"; \"\n|x", none, [.token .symbol ⟨4, 6⟩ "|x"]⟩ ∧
      readMarked "; \"\n|x" ≠ .ok ⟨"; \"\nx", some 4, [.token .symbol ⟨4, 5⟩ "x"]⟩ := by
  have hread : readMarked "; \"\n|x" = .ok ⟨"; \"\n|x", none, [.token .symbol ⟨4, 6⟩ "|x"]⟩ := rfl
  refine ⟨rfl, by decide, rfl, by decide, hread, ?_⟩
  intro hwanted
  cases congrArg MarkedSource.cursor (Except.ok.inj (hread.symm.trans hwanted))

end PhelAssist
