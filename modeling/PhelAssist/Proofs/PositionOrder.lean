import Mathlib.Data.List.Infix
import Mathlib.Data.Prod.Lex
import Mathlib.Order.Bounds.Defs
import PhelAssist.Proofs.Offsets
import PhelAssist.Proofs.Positions

namespace PhelAssist

namespace Position

/-- Positions are ordered by line, and on one line by character. -/
instance : LinearOrder Position :=
  LinearOrder.lift' (fun p => toLex (p.line, p.character)) fun p q h => by
    obtain ⟨hline, hcharacter⟩ := Prod.mk.inj (toLex.injective h)
    exact Position.ext hline hcharacter

theorem lt_iff {p q : Position} :
    p < q ↔ p.line < q.line ∨ p.line = q.line ∧ p.character < q.character :=
  Prod.Lex.toLex_lt_toLex

theorem le_iff {p q : Position} :
    p ≤ q ↔ p.line < q.line ∨ p.line = q.line ∧ p.character ≤ q.character :=
  Prod.Lex.toLex_le_toLex

end Position

namespace Text

variable {cs : List Char}

theorem byteLength_le_of_isPrefix {a b : List Char} (h : a <+: b) : byteLength a ≤ byteLength b := by
  obtain ⟨rest, rfl⟩ := h
  rw [byteLength_append]
  exact Nat.le_add_right _ _

theorem byteLength_take_le (cs : List Char) {i j : Nat} (h : i ≤ j) :
    byteLength (cs.take i) ≤ byteLength (cs.take j) :=
  byteLength_le_of_isPrefix (List.take_prefix_take_left h)

/-- The boundaries of a text are the ends of what its first characters take up. -/
theorem isBoundary_iff_take {offset : Nat} :
    IsBoundary cs offset ↔ ∃ i ≤ cs.length, byteLength (cs.take i) = offset := by
  rw [isBoundary_iff]
  constructor
  · rintro ⟨a, b, rfl, rfl⟩
    exact ⟨a.length, by simp, by rw [List.take_left]⟩
  · rintro ⟨i, -, rfl⟩
    exact ⟨cs.take i, cs.drop i, (List.take_append_drop i cs).symm, rfl⟩

section CharIndex

theorem isSome_charIndex?_iff {offset : Nat} :
    (charIndex? cs offset).isSome ↔ offset ≤ byteLength cs := by
  induction cs generalizing offset with
  | nil => cases offset <;> simp [charIndex?]
  | cons c cs ih =>
    rw [charIndex?, byteLength_cons]
    split
    · simp only [Option.isSome_some, true_iff]
      omega
    · rw [Option.isSome_map, ih]
      omega

/-- A byte belongs to the character that starts at or before it, while the next one starts behind
it. -/
theorem charIndex?_bounds {offset i : Nat} (h : charIndex? cs offset = some i) :
    i ≤ cs.length ∧ byteLength (cs.take i) ≤ offset ∧
      (i < cs.length → offset < byteLength (cs.take (i + 1))) := by
  induction cs generalizing offset i with
  | nil =>
    cases offset with
    | zero => simp_all [charIndex?]
    | succ n => simp [charIndex?] at h
  | cons c cs ih =>
    rw [charIndex?] at h
    split at h
    · next hlt =>
      obtain rfl := Option.some.inj h
      simpa using hlt
    · obtain ⟨i, hi, rfl⟩ := Option.map_eq_some_iff.1 h
      obtain ⟨hle, hstart, hnext⟩ := ih hi
      simp only [List.length_cons, List.take_succ_cons, byteLength_cons]
      refine ⟨by omega, by omega, fun hlt => ?_⟩
      have := hnext (by omega)
      omega

theorem isGreatest_byteLength_take {offset i : Nat} (h : charIndex? cs offset = some i) :
    IsGreatest {b | IsBoundary cs b ∧ b ≤ offset} (byteLength (cs.take i)) := by
  obtain ⟨hle, hstart, hnext⟩ := charIndex?_bounds h
  refine ⟨⟨isBoundary_iff_take.2 ⟨i, hle, rfl⟩, hstart⟩, ?_⟩
  rintro b ⟨hb, hoffset⟩
  obtain ⟨j, hj, rfl⟩ := isBoundary_iff_take.1 hb
  -- a boundary behind the character would be behind the offset
  rcases Nat.lt_or_ge i j with hlt | hge
  · have hbehind := byteLength_take_le cs (show i + 1 ≤ j from hlt)
    have := hnext (by omega)
    omega
  · exact byteLength_take_le cs hge

end CharIndex

section Locate

/-- Counting further leads further. -/
theorem locate_lt_locate (ls : List (List Char)) {i j : Nat} (h : i < j) :
    locate ls i < locate ls j := by
  rw [Position.lt_iff]
  induction ls, i using locate.induct generalizing j with
  | case1 line next rest i hi =>
    rw [locate, if_pos hi, locate]
    split
    · exact .inr ⟨rfl, h⟩
    · exact .inl (Nat.succ_pos _)
  | case2 line next rest i hi ih =>
    rw [locate, if_neg hi, locate, if_neg (by omega)]
    have hrest := ih (show i - line.length < j - line.length by omega)
    simp only
    omega
  | case3 ls i hshort =>
    rw [locate.eq_2 ls i hshort, locate.eq_2 ls j hshort]
    exact .inr ⟨rfl, h⟩

/-- The end of a part from the start of a text is found by counting its characters off. -/
theorem positionAt?_of_isPrefix {a : List Char} (h : a <+: cs) :
    positionAt? cs (byteLength a) = some (locate (lines cs) a.length) := by
  obtain ⟨rest, rfl⟩ := h
  rw [positionAt?, charIndex?_append, Option.map_some]

theorem positionAt?_take {i : Nat} (hi : i ≤ cs.length) :
    positionAt? cs (byteLength (cs.take i)) = some (locate (lines cs) i) := by
  rw [positionAt?_of_isPrefix (List.take_prefix i cs), List.length_take_of_le hi]

/-- A position counts no further than the text has lines and characters. -/
theorem locate_bounds {i : Nat} (hi : i ≤ cs.length) :
    (locate (lines cs) i).line < (lines cs).length ∧
      (locate (lines cs) i).character ≤ cs.length := by
  have hcount : i ≤ (lines cs).flatten.length := by rwa [flatten_lines]
  obtain ⟨before, line, after, hsplit, hlocate, -, -⟩ := locate_split (lines_ne_nil cs) hcount
  rw [hlocate]
  refine ⟨?_, Nat.le_trans (Nat.sub_le _ _) hi⟩
  rw [hsplit, List.length_append, List.length_cons]
  exact Nat.lt_add_of_pos_right (Nat.succ_pos _)

end Locate

section TextBefore

/-- The part of a text in front of a position. -/
def textBefore (cs : List Char) (p : Position) : List Char :=
  ((lines cs).take p.line).flatten ++ ((lines cs)[p.line]?.getD []).take p.character

theorem offsetAt?_eq_textBefore {p : Position} (h : p.line < (lines cs).length) :
    offsetAt? cs p = some (byteLength (textBefore cs p)) := by
  rw [offsetAt?, List.drop_eq_getElem_cons h, textBefore, List.getElem?_eq_getElem h,
    byteLength_append, Option.getD_some]

theorem textBefore_isPrefix_take (cs : List Char) (p : Position) :
    textBefore cs p <+: ((lines cs).take (p.line + 1)).flatten := by
  rw [textBefore, List.take_add_one, List.flatten_append]
  apply (List.prefix_append_right_inj _).2
  cases (lines cs)[p.line]? with
  | none => simp
  | some line => simpa using List.take_prefix p.character line

theorem textBefore_isPrefix (cs : List Char) (p : Position) : textBefore cs p <+: cs := by
  have hlines := (List.take_prefix (p.line + 1) (lines cs)).flatten
  rw [flatten_lines] at hlines
  exact (textBefore_isPrefix_take cs p).trans hlines

theorem textBefore_isPrefix_of_le {p q : Position} (h : p ≤ q) :
    textBefore cs p <+: textBefore cs q := by
  rcases Position.le_iff.1 h with hline | ⟨hline, hcharacter⟩
  · have hlines : (lines cs).take (p.line + 1) <+: (lines cs).take q.line :=
      List.take_prefix_take_left hline
    calc
      textBefore cs p <+: ((lines cs).take (p.line + 1)).flatten := textBefore_isPrefix_take cs p
      _ <+: ((lines cs).take q.line).flatten := hlines.flatten
      _ <+: textBefore cs q := List.prefix_append _ _
  · rw [textBefore, textBefore, hline]
    exact (List.prefix_append_right_inj _).2 (List.take_prefix_take_left hcharacter)

end TextBefore

/-- Offsets and positions measure a text in the same order. Every offset of the text has a position,
which leads back to the last boundary up to the offset and counts no further than the text has lines
and characters. Further boundaries have further positions, and further positions have offsets that
are no smaller. -/
theorem positionAt?_offsetAt?_ordered (cs : List Char) :
    (∀ offset, (positionAt? cs offset).isSome ↔ offset ≤ byteLength cs) ∧
    (∀ offset p, positionAt? cs offset = some p →
      (∃ start, offsetAt? cs p = some start ∧
        IsGreatest {b | IsBoundary cs b ∧ b ≤ offset} start) ∧
      p.line < (lines cs).length ∧ p.character ≤ cs.length) ∧
    (∀ a b, IsBoundary cs a → IsBoundary cs b → a < b →
      ∃ p q, positionAt? cs a = some p ∧ positionAt? cs b = some q ∧ p < q) ∧
    ∀ p q : Position, p ≤ q → p.line < (lines cs).length → q.line < (lines cs).length →
      ∃ a b, offsetAt? cs p = some a ∧ offsetAt? cs q = some b ∧ a ≤ b := by
  refine ⟨?_, ?_, ?_, ?_⟩
  · intro offset
    rw [positionAt?, Option.isSome_map, isSome_charIndex?_iff]
  · intro offset p h
    obtain ⟨i, hi, rfl⟩ := Option.map_eq_some_iff.1 h
    have hle := (charIndex?_bounds hi).1
    exact ⟨⟨_, offsetAt?_locate hle, isGreatest_byteLength_take hi⟩, locate_bounds hle⟩
  · intro a b ha hb hab
    obtain ⟨i, hi, rfl⟩ := isBoundary_iff_take.1 ha
    obtain ⟨j, hj, rfl⟩ := isBoundary_iff_take.1 hb
    have hij : i < j := by
      apply Nat.lt_of_not_le
      intro hji
      have := byteLength_take_le cs hji
      omega
    exact ⟨_, _, positionAt?_take hi, positionAt?_take hj, locate_lt_locate _ hij⟩
  · intro p q hpq hp hq
    exact ⟨_, _, offsetAt?_eq_textBefore hp, offsetAt?_eq_textBefore hq,
      byteLength_le_of_isPrefix (textBefore_isPrefix_of_le hpq)⟩

/-- An offset inside a character, one between CR and LF, and the one behind them. -/
example : positionAt? "é\r\na".toList 1 = some ⟨0, 0⟩ ∧
    positionAt? "é\r\na".toList 3 = some ⟨0, 2⟩ ∧
    positionAt? "é\r\na".toList 4 = some ⟨1, 0⟩ := by
  decide +kernel

end Text

end PhelAssist
