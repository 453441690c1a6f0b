import PhelAssist.Proofs.Marks

namespace PhelAssist

namespace SnippetPart

/-- The default text of a tab stop up to its closing brace, and what follows. -/
def readDefault? : List Char → Option (List Char × List Char)
  | [] => none
  | '\\' :: c :: rest =>
    if IsActive c then (readDefault? rest).map fun r => (c :: r.1, r.2)
    else (readDefault? (c :: rest)).map fun r => ('\\' :: r.1, r.2)
  | c :: rest =>
    if c = '\x7d' then some ([], rest)
    else if c = '$' then none
    else (readDefault? rest).map fun r => (c :: r.1, r.2)

/-- The tab stop behind a dollar sign, and what follows: the longest run of digits, or a number and
default text in braces. -/
def readStop? : List Char → Option (SnippetPart × List Char)
  | '\x7b' :: rest =>
    match rest.takeWhile Char.isDigit, rest.dropWhile Char.isDigit with
    | d :: ds, ':' :: body =>
      (readDefault? body).map fun r => (tabStop (Nat.ofDigitChars 10 (d :: ds) 0) r.1, r.2)
    | _, _ => none
  | rest =>
    match rest.takeWhile Char.isDigit with
    | [] => none
    | d :: ds =>
      let number := Nat.ofDigitChars 10 (d :: ds) 0
      some (if number = 0 then finalCaret else tabStop number [], rest.dropWhile Char.isDigit)

theorem length_readDefault? {cs : List Char} {r : List Char × List Char}
    (h : readDefault? cs = some r) : r.2.length ≤ cs.length := by
  fun_induction readDefault? cs generalizing r with
  | case1 => contradiction
  | case2 c cs hc ih =>
    obtain ⟨r, hr, rfl⟩ := Option.map_eq_some_iff.1 h
    have hle := ih hr
    exact Nat.le_add_right_of_le (Nat.le_add_right_of_le hle)
  | case3 c cs hc ih =>
    obtain ⟨r, hr, rfl⟩ := Option.map_eq_some_iff.1 h
    have hle := ih hr
    exact Nat.le_add_right_of_le hle
  | case4 =>
    cases h
    exact Nat.le_add_right _ _
  | case5 => contradiction
  | case6 c cs _ _ _ ih =>
    obtain ⟨r, hr, rfl⟩ := Option.map_eq_some_iff.1 h
    have hle := ih hr
    exact Nat.le_add_right_of_le hle

theorem length_readStop? {cs : List Char} {r : SnippetPart × List Char}
    (h : readStop? cs = some r) : r.2.length ≤ cs.length := by
  have hdrop (l : List Char) : (l.dropWhile Char.isDigit).length ≤ l.length :=
    (List.dropWhile_sublist _).length_le
  unfold readStop? at h
  split at h
  · next rest =>
    split at h
    · next d ds body _ hbody =>
      obtain ⟨r, hr, rfl⟩ := Option.map_eq_some_iff.1 h
      have hlength := hdrop rest
      rw [hbody] at hlength
      simp only [List.length_cons] at hlength ⊢
      have := length_readDefault? hr
      omega
    · contradiction
  · next =>
    split at h
    · contradiction
    · cases h
      exact hdrop cs

/-- What an editor reads in a snippet, with each character of the text as a part of its own. -/
def read? : List Char → Option (List SnippetPart)
  | [] => some []
  | '$' :: rest =>
    match h : readStop? rest with
    | some r =>
      have := length_readStop? h
      (read? r.2).map (r.1 :: ·)
    | none => none
  | '\\' :: c :: rest =>
    if IsActive c then (read? rest).map (text [c] :: ·)
    else (read? (c :: rest)).map (text ['\\'] :: ·)
  | c :: rest => (read? rest).map (text [c] :: ·)
termination_by cs => cs.length
decreasing_by
  all_goals simp only [List.length_cons]
  all_goals omega

theorem read?_escape (c : Char) (rest : List Char) :
    read? (escape c ++ rest) = (read? rest).map (text [c] :: ·) := by
  by_cases hc : IsActive c
  · rw [escape_of_isActive hc]
    simp [read?, hc]
  · have hdollar : c ≠ '$' := fun heq => hc (.inl heq)
    have hback : c ≠ '\\' := fun heq => hc (.inr (.inr heq))
    rw [escape_of_not_isActive hc]
    simp [read?, hback]

theorem readDefault?_escape (cs rest : List Char) :
    readDefault? (cs.flatMap escape ++ '\x7d' :: rest) = some (cs, rest) := by
  induction cs with
  | nil => simp [readDefault?]
  | cons c cs ih =>
    rw [List.flatMap_cons, List.append_assoc]
    by_cases hc : IsActive c
    · rw [escape_of_isActive hc]
      simp [readDefault?, hc, ih]
    · have hdollar : c ≠ '$' := fun heq => hc (.inl heq)
      have hbrace : c ≠ '\x7d' := fun heq => hc (.inr (.inl heq))
      have hback : c ≠ '\\' := fun heq => hc (.inr (.inr heq))
      rw [escape_of_not_isActive hc]
      simp [readDefault?, hdollar, hbrace, hback, ih]

theorem read?_of_readStop? {cs rest : List Char} {part : SnippetPart}
    (h : readStop? cs = some (part, rest)) :
    read? ('$' :: cs) = (read? rest).map (part :: ·) := by
  rw [read?]
  split
  · next r hr =>
    cases hr.symm.trans h
    rfl
  · next hr => cases hr.symm.trans h

theorem readStop?_tabStop (n : Nat) (cs rest : List Char) :
    readStop? ('\x7b' :: (Nat.toDigits 10 n ++ ':' :: (cs.flatMap escape ++ '\x7d' :: rest))) =
      some (tabStop n cs, rest) := by
  have hdigits : ∀ c ∈ Nat.toDigits 10 n, c.isDigit = true := fun c hc =>
    Nat.isDigit_of_mem_toDigits (by decide) (by decide) hc
  obtain ⟨d, ds, hnumber⟩ := List.exists_cons_of_ne_nil (@Nat.toDigits_ne_nil n 10)
  have hvalue : Nat.ofDigitChars 10 (d :: ds) 0 = n := by
    rw [← hnumber, Nat.ofDigitChars_ten_toDigits]
  have hcolon : ¬ ':'.isDigit = true := by decide
  rw [readStop?, List.takeWhile_append_of_pos hdigits, List.dropWhile_append_of_pos hdigits,
    List.takeWhile_cons_of_neg hcolon, List.dropWhile_cons_of_neg hcolon, List.append_nil, hnumber]
  simp [readDefault?_escape, hvalue]

/-- A caret is read as such unless a digit follows. -/
theorem readStop?_finalCaret {rest : List Char} (h : ∀ c, rest.head? = some c → c.isDigit = false) :
    readStop? ('0' :: rest) = some (finalCaret, rest) := by
  have htake : rest.takeWhile Char.isDigit = [] := by
    cases rest with
    | nil => rfl
    | cons c rest => simp [h c rfl]
  have hdrop : rest.dropWhile Char.isDigit = rest := by
    cases rest with
    | nil => rfl
    | cons c rest => simp [h c rfl]
  have hzero : '0'.isDigit = true := by decide
  have hvalue : Nat.ofDigitChars 10 ['0'] 0 = 0 := by decide
  simp [readStop?, hzero, htake, hdrop, hvalue]

/-- The characters of a text as parts of their own. -/
def letters : SnippetPart → List SnippetPart
  | text cs => cs.map fun c => text [c]
  | part => [part]

theorem flatMap_letters (part : SnippetPart) : part.letters.flatMap chars = part.chars := by
  cases part with
  | text cs => simp [letters, chars, List.flatMap_map]
  | tabStop n default => simp [letters]
  | finalCaret => rfl

theorem flatMap_flatMap_letters (parts : List SnippetPart) :
    (parts.flatMap letters).flatMap chars = parts.flatMap chars := by
  rw [List.flatMap_assoc]
  exact congrArg (List.flatMap · parts) (funext flatMap_letters)

theorem filterMap_placed_letters {β : Type} {f : Nat × SnippetPart → Option β}
    (htext : ∀ offset cs, f (offset, text cs) = none) (offset : Nat) (parts : List SnippetPart) :
    (Text.placed chars offset (parts.flatMap letters)).filterMap f =
      (Text.placed chars offset parts).filterMap f := by
  apply Text.filterMap_placed_flatMap chars flatMap_letters
  intro offset part
  cases part with
  | text cs =>
    rw [htext]
    apply Text.filterMap_placed_eq_nil
    intro letter hletter offset
    obtain ⟨c, -, rfl⟩ := List.mem_map.1 hletter
    exact htext offset [c]
  | tabStop n default =>
    cases hpart : f (offset, tabStop n default) <;> simp [letters, hpart]
  | finalCaret =>
    cases hpart : f (offset, finalCaret) <;> simp [letters, hpart]

theorem stops_flatMap_letters (offset : Nat) (parts : List SnippetPart) :
    stops offset (parts.flatMap letters) = stops offset parts :=
  filterMap_placed_letters (fun _ _ => rfl) offset parts

theorem carets_flatMap_letters (offset : Nat) (parts : List SnippetPart) :
    carets offset (parts.flatMap letters) = carets offset parts :=
  filterMap_placed_letters (fun _ _ => rfl) offset parts

theorem read?_text (cs rest : List Char) :
    read? (cs.flatMap escape ++ rest) = (read? rest).map ((text cs).letters ++ ·) := by
  induction cs with
  | nil => simp [letters]
  | cons c cs ih =>
    rw [List.flatMap_cons, List.append_assoc, read?_escape, ih, Option.map_map]
    rfl

/-- No digit follows a caret in the written snippet. -/
def CaretsApart (parts : List SnippetPart) : Prop :=
  ∀ before after, parts = before ++ finalCaret :: after →
    ∀ c, (after.flatMap render).head? = some c → c.isDigit = false

theorem CaretsApart.tail {part : SnippetPart} {parts : List SnippetPart}
    (h : CaretsApart (part :: parts)) : CaretsApart parts := by
  intro before after hparts
  exact h (part :: before) after (by rw [hparts, List.cons_append])

theorem read?_render {parts : List SnippetPart} (h : CaretsApart parts) :
    read? (parts.flatMap render) = some (parts.flatMap letters) := by
  induction parts with
  | nil => simp [read?]
  | cons part parts ih =>
    have hrest := ih h.tail
    rw [List.flatMap_cons, List.flatMap_cons]
    cases part with
    | text cs => rw [render, read?_text, hrest, Option.map_some]
    | tabStop n default =>
      have hstop := read?_of_readStop? (readStop?_tabStop n default (parts.flatMap render))
      rw [hrest] at hstop
      simpa [render, letters] using hstop
    | finalCaret =>
      have hstop := read?_of_readStop? (readStop?_finalCaret (h [] parts rfl))
      rw [hrest] at hstop
      exact hstop

/-- A digit at the start of a written snippet is the first character of its text: everything else
starts with a dollar sign or a backslash. -/
theorem head?_flatMap_chars {parts : List SnippetPart} {c : Char} (hc : c.isDigit = true)
    (h : (parts.flatMap render).head? = some c) : (parts.flatMap chars).head? = some c := by
  induction parts with
  | nil => contradiction
  | cons part parts ih =>
    rw [List.flatMap_cons] at h ⊢
    cases part with
    | text cs =>
      cases cs with
      | nil => exact ih h
      | cons d cs =>
        rw [render, List.flatMap_cons] at h
        by_cases hd : IsActive d
        · rw [escape_of_isActive hd] at h
          cases h
          contradiction
        · rw [escape_of_not_isActive hd] at h
          cases h
          rfl
    | tabStop n default =>
      cases h
      contradiction
    | finalCaret =>
      cases h
      contradiction

end SnippetPart

/-- The character that stands at an offset. -/
def Text.charAt? (cs : List Char) (offset : Nat) : Option Char :=
  (cut? cs offset).bind fun parts => parts.2.head?

theorem Text.charAt?_append (a b : List Char) : charAt? (a ++ b) (byteLength a) = b.head? := by
  have hcut : cut? (a ++ b) (byteLength a) = some (a, b) := cut?_eq_some_iff.2 ⟨rfl, rfl⟩
  rw [charAt?, hcut, Option.bind_some]

namespace Template

open SnippetPart (chars stops carets)

/-- An editor that reads the snippet inserts the text of the template, with its slots as numbered
tab stops and with final carets at the given offsets. -/
def ReadsBack (t : Template) (places : List Nat) : Prop :=
  ∃ parts, SnippetPart.read? t.snippet.toList = some parts ∧
    parts.flatMap chars = t.text.toList ∧
    stops 0 parts = (t.slots.map Slot.region).zipIdx 1 ∧ carets 0 parts = places

variable {t : Template}

/-- What follows a caret in the snippet is what stands at the caret in the text. -/
theorem caretsApart_parts (h : t.CaretStands → ∀ c,
      Text.charAt? t.text.toList t.caret = some c → c.isDigit = false) :
    SnippetPart.CaretsApart t.parts := by
  intro before after hparts c hc
  have htext := t.flatMap_parts
  -- the only caret among the parts is the one of the template
  have hplace : t.CaretStands ∧ Text.byteLength (before.flatMap chars) = t.caret := by
    have hmem : Text.byteLength (before.flatMap chars) ∈ carets 0 t.parts := by
      rw [hparts, SnippetPart.carets_append, SnippetPart.carets_finalCaret, Nat.zero_add]
      exact List.mem_append_right _ List.mem_cons_self
    rw [t.carets_parts] at hmem
    split at hmem
    · next hcaret => exact ⟨hcaret, List.mem_singleton.1 hmem⟩
    · contradiction
  cases hdigit : c.isDigit with
  | false => rfl
  | true =>
    have hfirst := SnippetPart.head?_flatMap_chars hdigit hc
    rw [hparts, List.flatMap_append] at htext
    have hat : Text.charAt? t.text.toList t.caret = some c := by
      rw [← htext, ← hplace.2, Text.charAt?_append]
      exact hfirst
    rw [h hplace.1 c hat] at hdigit
    contradiction

theorem Tidy.caretStands_iff (h : t.Tidy) :
    t.CaretStands ↔ ∀ p ∈ t.slots, ¬ p.span.Reaches t.caret := by
  rw [CaretStands, h.regions_eq, List.forall_mem_map]
  exact and_iff_right h.caret

theorem Tidy.readsBack (h : t.Tidy) (happart : SnippetPart.CaretsApart t.parts) :
    t.ReadsBack (if t.CaretStands then [t.caret] else []) := by
  refine ⟨t.parts.flatMap SnippetPart.letters, ?_, ?_, ?_, ?_⟩
  · rw [snippet, String.toList_ofList, SnippetPart.read?_render happart]
  · rw [SnippetPart.flatMap_flatMap_letters, t.flatMap_parts]
  · rw [SnippetPart.stops_flatMap_letters, h.stops_parts]
  · rw [SnippetPart.carets_flatMap_letters, t.carets_parts]

/-- The last caret of a marked text. If it reaches no slot and no digit stands at it, then the
snippet is read as the text of the template with its slots and with the final caret at its place.
If it reaches a slot, then the snippet is read as the same text and slots without a final caret. -/
theorem readsBack_ofMarked {marked : String} {before after : List Mark}
    (hscan : Mark.scan marked.toList = before ++ .caret :: after) (hlast : .caret ∉ after) :
    let t := ofMarked marked
    t.caret = Text.byteLength (before.flatMap Mark.chars) ∧
      ((∀ p ∈ t.slots, ¬ p.span.Reaches t.caret) →
        (∀ c, Text.charAt? t.text.toList t.caret = some c → c.isDigit = false) →
        t.ReadsBack [t.caret]) ∧
      ((∃ p ∈ t.slots, p.span.Reaches t.caret) → t.ReadsBack []) := by
  intro t
  have htidy : t.Tidy := tidy_ofMarks _
  refine ⟨?_, ?_, ?_⟩
  · have hcaret := Mark.caret?_of_last before hlast
    rw [← hscan] at hcaret
    simp [t, ofMarked, ofMarks, hcaret]
  · intro hfree hdigit
    have hstands := htidy.caretStands_iff.2 hfree
    have hreads := htidy.readsBack (caretsApart_parts fun _ => hdigit)
    rwa [if_pos hstands] at hreads
  · intro hreached
    have hstands : ¬ t.CaretStands := by
      intro hstands
      obtain ⟨p, hp, hreaches⟩ := hreached
      exact htidy.caretStands_iff.1 hstands p hp hreaches
    have hreads := htidy.readsBack (caretsApart_parts fun h => absurd h hstands)
    rwa [if_neg hstands] at hreads

/-- A caret behind another one, and a caret that reaches a slot. -/
theorem readsBack_ofMarked_twice :
    let t : Template := ⟨"ax é", [⟨"x", ⟨1, 2⟩⟩], 3⟩
    let u : Template := ⟨"x1", [⟨"x", ⟨0, 1⟩⟩], 1⟩
    (Mark.scan "a$0$\x7bx\x7d $0é".toList =
        [.text 'a', .caret, .region ['x'], .text ' '] ++ .caret :: [.text 'é'] ∧
      ofMarked "a$0$\x7bx\x7d $0é" = t ∧ (∀ p ∈ t.slots, ¬ p.span.Reaches t.caret) ∧
      (∀ c, Text.charAt? t.text.toList t.caret = some c → c.isDigit = false) ∧
      t.ReadsBack [3]) ∧
    (Mark.scan "$\x7bx\x7d$01".toList = [.region ['x']] ++ .caret :: [.text '1'] ∧
      ofMarked "$\x7bx\x7d$01" = u ∧ (∃ p ∈ u.slots, p.span.Reaches u.caret) ∧
      u.ReadsBack []) := by
  intro t u
  have hscan : Mark.scan "a$0$\x7bx\x7d $0é".toList =
      [.text 'a', .caret, .region ['x'], .text ' '] ++ .caret :: [.text 'é'] := by decide +kernel
  have ht : ofMarked "a$0$\x7bx\x7d $0é" = t := by decide +kernel
  have hfree : ∀ p ∈ t.slots, ¬ p.span.Reaches t.caret := by decide
  have hdigit : ∀ c, Text.charAt? t.text.toList t.caret = some c → c.isDigit = false := by
    intro c hc
    have hat : Text.charAt? t.text.toList t.caret = some 'é' := by decide
    cases hat.symm.trans hc
    decide
  have hread := (readsBack_ofMarked hscan (by decide)).2.1
  rw [ht] at hread
  have hscan' : Mark.scan "$\x7bx\x7d$01".toList =
      [.region ['x']] ++ .caret :: [.text '1'] := by decide +kernel
  have hu : ofMarked "$\x7bx\x7d$01" = u := by decide +kernel
  have hreached : ∃ p ∈ u.slots, p.span.Reaches u.caret := by decide
  have hread' := (readsBack_ofMarked hscan' (by decide)).2.2
  rw [hu] at hread'
  exact ⟨⟨hscan, ht, hfree, hdigit, hread hfree hdigit⟩, hscan', hu, hreached, hread' hreached⟩

/-- Reading the snippet inserts the text, with a final caret where the template has its own. -/
def KeepsCaret (t : Template) : Prop :=
  ∃ parts, SnippetPart.read? t.snippet.toList = some parts ∧
    parts.flatMap chars = t.text.toList ∧ t.caret ∈ carets 0 parts

/-- A caret right behind a slot is left out, also where more text follows it, and one in front of a
digit is read as another tab stop together with it. -/
theorem not_keepsCaret_besideSlot :
    (Mark.caret ∈ Mark.scan "$\x7ba\x7d$0 b".toList ∧
        ¬ (ofMarked "$\x7ba\x7d$0 b").KeepsCaret) ∧
      Mark.caret ∈ Mark.scan "$05".toList ∧ ¬ (ofMarked "$05").KeepsCaret := by
  refine ⟨⟨by decide +kernel, ?_⟩, by decide +kernel, ?_⟩
  · intro hkeeps
    obtain ⟨parts, hread, -, hcaret⟩ := hkeeps
    have hstop : SnippetPart.read? (ofMarked "$\x7ba\x7d$0 b").snippet.toList =
        some [.tabStop 1 ['a'], .text [' '], .text ['b']] := by decide +kernel
    cases hstop.symm.trans hread
    contradiction
  · intro hkeeps
    obtain ⟨parts, hread, htext, -⟩ := hkeeps
    have hstop : SnippetPart.read? (ofMarked "$05").snippet.toList = some [.tabStop 5 []] := by
      decide +kernel
    have hdigit : (ofMarked "$05").text.toList = ['5'] := by decide +kernel
    cases hstop.symm.trans hread
    cases htext.trans hdigit

end Template

end PhelAssist
