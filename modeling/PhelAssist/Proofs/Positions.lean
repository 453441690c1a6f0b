import PhelAssist.Text.Lines

namespace PhelAssist.Text

theorem flatten_consToFirst (c : Char) (ls : List (List Char)) :
    (consToFirst c ls).flatten = c :: ls.flatten := by
  cases ls <;> simp [consToFirst]

/-- Lines keep their breaks, so nothing of a text is lost between them. -/
theorem flatten_lines (cs : List Char) : (lines cs).flatten = cs := by
  fun_induction lines cs with
  | case1 => rfl
  | case2 rest ih => simp [ih]
  | case3 c rest _ _ ih => simp [ih]
  | case4 c rest _ _ ih => rw [flatten_consToFirst, ih]

theorem lines_ne_nil (cs : List Char) : lines cs ≠ [] := by
  fun_induction lines cs with
  | case1 => simp
  | case2 => simp
  | case3 => simp
  | case4 c rest _ _ ih => cases h : lines rest <;> simp [consToFirst]

/-- The character behind a part of a text is numbered by the length of that part. -/
theorem charIndex?_append (a b : List Char) :
    charIndex? (a ++ b) (byteLength a) = some a.length := by
  induction a with
  | nil =>
    cases b with
    | nil => rfl
    | cons c b => simp [charIndex?, Char.utf8Size_pos]
  | cons c a ih =>
    have hpast : ¬ c.utf8Size + byteLength a < c.utf8Size := by omega
    simp [charIndex?, hpast, ih]

/-- Counting characters off ends in the line that holds the last of them, with the lines before it
used up. -/
theorem locate_split {ls : List (List Char)} (hne : ls ≠ []) {i : Nat}
    (hi : i ≤ ls.flatten.length) :
    ∃ before line after, ls = before ++ line :: after ∧
      locate ls i = ⟨before.length, i - before.flatten.length⟩ ∧
      before.flatten.length ≤ i ∧ i ≤ before.flatten.length + line.length := by
  fun_induction locate ls i with
  | case1 line next rest i hlt =>
    exact ⟨[], line, next :: rest, rfl, by simp, Nat.zero_le i, by simpa using Nat.le_of_lt hlt⟩
  | case2 line next rest i hge p ih =>
    have hrest : i - line.length ≤ (next :: rest).flatten.length := by
      rw [List.flatten_cons, List.length_append] at hi
      omega
    obtain ⟨before, last, after, hsplit, hlocate, hle, hlast⟩ := ih (by simp) hrest
    refine ⟨line :: before, last, after, by rw [hsplit, List.cons_append], ?_, ?_, ?_⟩
    · simp only [p, hlocate, List.length_cons, List.flatten_cons, List.length_append]
      rw [Nat.sub_sub]
    · rw [List.flatten_cons, List.length_append]
      omega
    · rw [List.flatten_cons, List.length_append]
      omega
  | case3 ls i hshort =>
    match ls, hne, hshort with
    | [line], _, _ => exact ⟨[], line, [], rfl, by simp, Nat.zero_le i, by simpa using hi⟩
    | line :: next :: rest, _, hshort => exact absurd rfl (hshort line next rest)

/-- The offset of a position on a line is counted from the end of the lines before it. -/
theorem offsetAt?_of_lines {cs line : List Char} {before after : List (List Char)}
    (h : lines cs = before ++ line :: after) (character : Nat) :
    offsetAt? cs ⟨before.length, character⟩ =
      some (byteLength before.flatten + byteLength (line.take character)) := by
  simp [offsetAt?, h]

/-- A position found by counting characters is the offset behind these characters. -/
theorem offsetAt?_locate {cs : List Char} {i : Nat} (hi : i ≤ cs.length) :
    offsetAt? cs (locate (lines cs) i) = some (byteLength (cs.take i)) := by
  have hflat := flatten_lines cs
  have hcount : i ≤ (lines cs).flatten.length := by rwa [hflat]
  obtain ⟨before, line, after, hsplit, hlocate, hle, hline⟩ := locate_split (lines_ne_nil cs) hcount
  have htake : cs.take i = before.flatten ++ line.take (i - before.flatten.length) := by
    have hrest : i - before.flatten.length - line.length = 0 := by omega
    rw [← hflat, hsplit, List.flatten_append, List.flatten_cons, List.take_append,
      List.take_of_length_le hle, List.take_append, hrest, List.take_zero, List.append_nil]
  rw [hlocate, offsetAt?_of_lines hsplit, htake, byteLength_append]

/-- A boundary of a text has a position, and the position leads back to it. -/
theorem exists_positionAt? {cs : List Char} {offset : Nat} (h : IsBoundary cs offset) :
    ∃ p, positionAt? cs offset = some p ∧ offsetAt? cs p = some offset := by
  obtain ⟨a, b, rfl, rfl⟩ := isBoundary_iff.1 h
  have hlength : a.length ≤ (a ++ b).length := by simp
  refine ⟨locate (lines (a ++ b)) a.length, ?_, ?_⟩
  · rw [positionAt?, charIndex?_append, Option.map_some]
  · rw [offsetAt?_locate hlength, List.take_left]

/-- So has a span that starts and ends at boundaries. -/
theorem exists_rangeOf? {cs : List Char} {span : Span} (hstart : IsBoundary cs span.start)
    (hstop : IsBoundary cs span.stop) :
    ∃ start stop, rangeOf? cs span = some (start, stop) ∧
      offsetAt? cs start = some span.start ∧ offsetAt? cs stop = some span.stop := by
  obtain ⟨start, hpos, hback⟩ := exists_positionAt? hstart
  obtain ⟨stop, hpos', hback'⟩ := exists_positionAt? hstop
  refine ⟨start, stop, ?_, hback, hback'⟩
  simp [rangeOf?, hpos, hpos']

end PhelAssist.Text
