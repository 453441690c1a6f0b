import PhelAssist.Proofs.PositionOrder

namespace PhelAssist.Text

variable {cs line : List Char}

/-- A line with a break at its end. -/
def EndsInBreak (line : List Char) : Prop := ∃ c ∈ line.getLast?, IsLineBreak c

instance (line : List Char) : Decidable (EndsInBreak line) :=
  Option.decidableExistsMem line.getLast?

theorem EndsInBreak.ne_nil (h : EndsInBreak line) : line ≠ [] := by
  rintro rfl
  obtain ⟨c, hc, -⟩ := h
  simp at hc

theorem endsInBreak_cons_iff {c : Char} :
    EndsInBreak (c :: line) ↔ EndsInBreak line ∨ line = [] ∧ IsLineBreak c := by
  cases line with
  | nil => simp [EndsInBreak]
  | cons d line => simp [EndsInBreak, List.getLast?_cons_cons]

/-- Every line but the last ends in a break. -/
theorem lines_breaks (cs : List Char) :
    ∃ ended last, lines cs = ended ++ [last] ∧ (∀ line ∈ ended, EndsInBreak line) ∧
      ¬ EndsInBreak last := by
  fun_induction lines cs with
  | case1 => exact ⟨[], [], rfl, by simp, by simp [EndsInBreak]⟩
  | case2 rest ih =>
    obtain ⟨ended, last, hlines, hended, hlast⟩ := ih
    refine ⟨['\r', '\n'] :: ended, last, by rw [hlines, List.cons_append], ?_, hlast⟩
    exact List.forall_mem_cons.2 ⟨⟨'\n', rfl, by decide⟩, hended⟩
  | case3 c rest _ hc ih =>
    obtain ⟨ended, last, hlines, hended, hlast⟩ := ih
    refine ⟨[c] :: ended, last, by rw [hlines, List.cons_append], ?_, hlast⟩
    exact List.forall_mem_cons.2 ⟨⟨c, rfl, hc⟩, hended⟩
  | case4 c rest _ hc ih =>
    obtain ⟨ended, last, hlines, hended, hlast⟩ := ih
    cases ended with
    | nil =>
      refine ⟨[], c :: last, by rw [hlines]; rfl, by simp, ?_⟩
      rw [endsInBreak_cons_iff]
      exact not_or_intro hlast fun h => hc h.2
    | cons line ended =>
      obtain ⟨hline, hended⟩ := List.forall_mem_cons.1 hended
      refine ⟨(c :: line) :: ended, last, by rw [hlines]; rfl, ?_, hlast⟩
      exact List.forall_mem_cons.2 ⟨endsInBreak_cons_iff.2 (.inl hline), hended⟩

/-- A line ends in a break if and only if another line follows. -/
theorem endsInBreak_iff {before after : List (List Char)}
    (h : lines cs = before ++ line :: after) : EndsInBreak line ↔ after ≠ [] := by
  obtain ⟨ended, last, hlines, hended, hlast⟩ := lines_breaks cs
  rw [hlines] at h
  rcases List.eq_nil_or_concat after with rfl | ⟨rest, final, rfl⟩
  · obtain ⟨-, hline⟩ := List.append_inj' h rfl
    obtain rfl : last = line := by simpa using hline
    simpa using hlast
  · have hsplit : ended ++ [last] = (before ++ line :: rest) ++ [final] := by simpa using h
    obtain ⟨rfl, -⟩ := List.append_inj' hsplit rfl
    simpa using hended line (by simp)

/-- Characters are counted off up to a place on a line, unless that place is behind the whole line
and another line follows. -/
theorem locate_append (before : List (List Char)) {line : List Char} {after : List (List Char)}
    {k : Nat} (hk : k < line.length ∨ after = []) :
    locate (before ++ line :: after) (before.flatten.length + k) = ⟨before.length, k⟩ := by
  induction before with
  | nil =>
    cases after with
    | nil => simp [locate]
    | cons next rest =>
      have hlt : k < line.length := hk.resolve_right (by simp)
      simp [locate, hlt]
  | cons first before ih =>
    obtain ⟨next, rest, hrest⟩ : ∃ next rest, before ++ line :: after = next :: rest := by
      cases before <;> simp
    have hskip : ¬ first.length + before.flatten.length + k < first.length := by omega
    have hsub : first.length + before.flatten.length + k - first.length =
        before.flatten.length + k := by omega
    rw [hrest] at ih
    rw [List.cons_append, hrest, List.flatten_cons, List.length_append, locate, if_neg hskip, hsub,
      ih, List.length_cons]

/-- Behind a line that ends in a break, the next line starts. -/
theorem locate_behind {before after : List (List Char)} (h : lines cs = before ++ line :: after)
    (hbreak : EndsInBreak line) :
    locate (lines cs) (before.flatten.length + line.length) = ⟨before.length + 1, 0⟩ := by
  obtain ⟨next, rest, rfl⟩ := List.exists_cons_of_ne_nil ((endsInBreak_iff h).1 hbreak)
  have hsplit : lines cs = (before ++ [line]) ++ next :: rest := by simpa using h
  have hnext : 0 < next.length ∨ rest = [] := by
    rcases eq_or_ne rest [] with hrest | hrest
    · exact .inr hrest
    · exact .inl (List.length_pos_of_ne_nil ((endsInBreak_iff hsplit).2 hrest).ne_nil)
  have hlocate := locate_append (before ++ [line]) hnext
  rw [hsplit]
  simpa using hlocate

theorem exists_lines_eq {i : Nat} (h : (lines cs)[i]? = some line) :
    ∃ before after, lines cs = before ++ line :: after ∧ before.length = i := by
  obtain ⟨hlt, hline⟩ := List.getElem?_eq_some_iff.1 h
  refine ⟨(lines cs).take i, (lines cs).drop (i + 1), ?_, ?_⟩
  · rw [← hline, ← List.drop_eq_getElem_cons hlt, List.take_append_drop]
  · exact List.length_take_of_le (Nat.le_of_lt hlt)

theorem length_textBefore {before after : List (List Char)}
    (h : lines cs = before ++ line :: after) (character : Nat) :
    (textBefore cs ⟨before.length, character⟩).length =
      before.flatten.length + min character line.length := by
  simp [textBefore, h]

/-- A position on a line of the text has an offset. Its character counts up to the length of the
line, break included, so that only a character behind a break leaves the line: that is the start of
the next one. -/
theorem positionAt?_of_offsetAt? {p : Position} (h : (lines cs)[p.line]? = some line) :
    ∃ offset, offsetAt? cs p = some offset ∧
      positionAt? cs offset =
        some (if EndsInBreak line ∧ line.length ≤ p.character then ⟨p.line + 1, 0⟩
          else ⟨p.line, min p.character line.length⟩) := by
  obtain ⟨number, character⟩ := p
  obtain ⟨before, after, hsplit, rfl⟩ := exists_lines_eq h
  have hlt : before.length < (lines cs).length := (List.getElem?_eq_some_iff.1 h).1
  refine ⟨_, offsetAt?_eq_textBefore hlt, ?_⟩
  rw [positionAt?_of_isPrefix (textBefore_isPrefix cs _), length_textBefore hsplit]
  congr 1
  split
  · next hpast => rw [Nat.min_eq_right hpast.2, locate_behind hsplit hpast.1]
  · next hstays =>
    rw [hsplit]
    apply locate_append
    -- either the character is on the line, or no line follows
    rcases Nat.lt_or_ge character line.length with hon | hbehind
    · exact .inl (Nat.lt_of_le_of_lt (Nat.min_le_left _ _) hon)
    · right
      by_contra hafter
      exact hstays ⟨(endsInBreak_iff hsplit).2 hafter, hbehind⟩

/-- Positions behind a break of two characters, and behind the end of the last line. -/
theorem positionAt?_of_offsetAt?_twoLines :
    (lines "é\r\nab".toList)[0]? = some ['é', '\r', '\n'] ∧
    (∃ offset, offsetAt? "é\r\nab".toList ⟨0, 7⟩ = some offset ∧
      positionAt? "é\r\nab".toList offset = some ⟨1, 0⟩) ∧
    (lines "é\r\nab".toList)[1]? = some ['a', 'b'] ∧
    ∃ offset, offsetAt? "é\r\nab".toList ⟨1, 7⟩ = some offset ∧
      positionAt? "é\r\nab".toList offset = some ⟨1, 2⟩ :=
  have first : (lines "é\r\nab".toList)[0]? = some ['é', '\r', '\n'] := by decide +kernel
  have second : (lines "é\r\nab".toList)[1]? = some ['a', 'b'] := by decide +kernel
  ⟨first, positionAt?_of_offsetAt? (p := ⟨0, 7⟩) first, second,
    positionAt?_of_offsetAt? (p := ⟨1, 7⟩) second⟩

/-- The only offset on an empty line is in front of its break, but a character past the end of the
line leads behind the break. -/
theorem not_sameLine_behindBreak :
    0 < (lines "\n".toList).length ∧
    ¬ ∃ offset q, offsetAt? "\n".toList ⟨0, 5⟩ = some offset ∧
      positionAt? "\n".toList offset = some q ∧ q.line = 0 := by
  have hoffset : offsetAt? "\n".toList ⟨0, 5⟩ = some 1 := by decide +kernel
  have hposition : positionAt? "\n".toList 1 = some ⟨1, 0⟩ := by decide +kernel
  refine ⟨by decide +kernel, ?_⟩
  rintro ⟨offset, q, ho, hq, hline⟩
  obtain rfl := Option.some.inj (hoffset.symm.trans ho)
  obtain rfl := Option.some.inj (hposition.symm.trans hq)
  simp at hline

end PhelAssist.Text
