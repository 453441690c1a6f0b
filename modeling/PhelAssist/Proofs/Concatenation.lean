import PhelAssist.Proofs.Printing

namespace PhelAssist

/-- A span in a text that has `n` more bytes in front. -/
def Span.shift (n : Nat) (s : Span) : Span := ⟨s.start + n, s.stop + n⟩

namespace Datum

mutual

/-- A datum of a text that has `n` more bytes in front. -/
def shift (n : Nat) : Datum → Datum
  | token kind span text => token kind (span.shift n) text
  | group c span closed items => group c (span.shift n) closed (shiftAll n items)

def shiftAll (n : Nat) : List Datum → List Datum
  | [] => []
  | d :: ds => d.shift n :: shiftAll n ds

end

theorem shiftAll_append (n : Nat) (a b : List Datum) :
    shiftAll n (a ++ b) = shiftAll n a ++ shiftAll n b := by
  induction a with
  | nil => simp [shiftAll]
  | cons d ds ih => simp [shiftAll, ih]

end Datum

open Datum (shiftAll shiftAll_append)

namespace ReadError

/-- An error in a text that has `n` more bytes in front. -/
def shift (n : Nat) : ReadError → ReadError
  | unmatched c offset => unmatched c (offset + n)
  | mismatched c offset => mismatched c (offset + n)
  | unterminatedString start => unterminatedString (start + n)
  | secondCursor => secondCursor

/-- What a computation gives that meets `n` more bytes in front, if `f` is what they do to its
result. -/
def relocate {α β : Type} (n : Nat) (f : α → β) : Except ReadError α → Except ReadError β
  | .ok a => .ok (f a)
  | .error e => .error (e.shift n)

/-- Steps that can be relocated one by one can be relocated all together. -/
theorem foldlM_relocate {σ α : Type} {n : Nat} {step : σ → α → Except ReadError σ} {f : σ → σ}
    {g : α → α} (h : ∀ s a, step (f s) (g a) = relocate n f (step s a)) (l : List α) (s : σ) :
    (l.map g).foldlM step (f s) = relocate n f (l.foldlM step s) := by
  induction l generalizing s with
  | nil => rfl
  | cons a l ih =>
    rw [List.map_cons, List.foldlM_cons, List.foldlM_cons, h]
    cases step s a with
    | error e => rfl
    | ok s' => exact ih s'

end ReadError

open ReadError (relocate foldlM_relocate)

def Lexeme.shift (n : Nat) : Lexeme → Lexeme
  | opening c offset => opening c (offset + n)
  | closing c offset => closing c (offset + n)
  | token kind span text => token kind (span.shift n) text

namespace ScanMode

def shift (n : Nat) : ScanMode → ScanMode
  | between => between
  | comment => comment
  | word start text => word (start + n) text
  | quoted start text escaped => quoted (start + n) text escaped

theorem enter_shift (n offset : Nat) (c : Char) :
    enter (offset + n) c =
      ((enter offset c).1.map (Lexeme.shift n), (enter offset c).2.shift n) := by
  unfold enter
  cases CharClass.of c <;> rfl

/-- A scan goes by the characters alone, and not by their places. -/
theorem step_shift (n offset : Nat) (c : Char) (mode : ScanMode) :
    (mode.shift n).step (offset + n) c =
      ((mode.step offset c).1.map (Lexeme.shift n), (mode.step offset c).2.shift n) := by
  cases mode with
  | between => exact enter_shift n offset c
  | comment =>
    simp only [shift, step]
    split <;> rfl
  | word start text =>
    simp only [shift, step, enter_shift]
    split <;> rfl
  | quoted start text escaped =>
    simp only [shift, step, Nat.add_right_comm offset n]
    split_ifs <;> rfl

end ScanMode

def Level.shift (n : Nat) (l : Level) : Level := ⟨l.collection, l.start + n, shiftAll n l.items⟩

namespace Nesting

/-- What has been read, if a text of `n` bytes with the given forms comes first. -/
def behind (n : Nat) (forms : List Datum) (nesting : Nesting) : Nesting :=
  ⟨nesting.levels.map (Level.shift n), forms ++ shiftAll n nesting.forms⟩

variable (n : Nat) (forms : List Datum) (nesting : Nesting)

theorem add_behind (d : Datum) :
    (nesting.behind n forms).add (d.shift n) = (nesting.add d).behind n forms := by
  obtain ⟨levels, read⟩ := nesting
  cases levels with
  | nil => simp [behind, add, shiftAll_append, shiftAll]
  | cons l ls => simp [behind, add, Level.shift, shiftAll_append, shiftAll]

theorem apply_behind (lex : Lexeme) :
    (nesting.behind n forms).apply (lex.shift n) =
      relocate n (behind n forms) (nesting.apply lex) := by
  cases lex with
  | token kind span text =>
    exact congrArg Except.ok (add_behind n forms nesting (.token kind span text))
  | opening c offset => rfl
  | closing c offset =>
    obtain ⟨levels, read⟩ := nesting
    cases levels with
    | nil => rfl
    | cons l ls =>
      have hclose : (l.shift n).close (offset + n + c.closing.utf8Size) true =
          (l.close (offset + c.closing.utf8Size) true).shift n := by
        simp [Level.close, Level.shift, Datum.shift, Span.shift, Nat.add_right_comm]
      have hadd := add_behind n forms ⟨ls, read⟩ (l.close (offset + c.closing.utf8Size) true)
      simp only [apply, behind, Lexeme.shift, List.map_cons, hclose]
      by_cases hc : l.collection = c
      · rw [if_pos hc, if_pos (show (l.shift n).collection = c from hc)]
        exact congrArg Except.ok hadd
      · rw [if_neg hc, if_neg (show ¬ (l.shift n).collection = c from hc)]
        rfl

/-- The open collections end together, wherever that is. -/
theorem finish_behind (stop : Nat) :
    (nesting.behind n forms).finish (stop + n) = forms ++ shiftAll n (nesting.finish stop) := by
  have hfold : ∀ (levels : List Level) (inner : List Datum),
      (levels.map (Level.shift n)).foldl (fun inner l =>
        [Level.close ⟨l.collection, l.start, l.items ++ inner⟩ (stop + n) false])
        (shiftAll n inner) =
      shiftAll n (levels.foldl (fun inner l =>
        [Level.close ⟨l.collection, l.start, l.items ++ inner⟩ stop false]) inner) := by
    intro levels
    induction levels with
    | nil => exact fun inner => rfl
    | cons l ls ih =>
      intro inner
      have hclose : [Level.close ⟨(l.shift n).collection, (l.shift n).start,
          (l.shift n).items ++ shiftAll n inner⟩ (stop + n) false] =
          shiftAll n [Level.close ⟨l.collection, l.start, l.items ++ inner⟩ stop false] := by
        simp [Level.close, Level.shift, shiftAll, Datum.shift, Span.shift, shiftAll_append]
      rw [List.map_cons, List.foldl_cons, List.foldl_cons, hclose, ih]
  have hall := hfold nesting.levels []
  rw [show shiftAll n [] = [] from rfl] at hall
  rw [finish, behind, hall, List.append_assoc, ← shiftAll_append]
  rfl

/-- If the end of the text leaves no form unclosed, then none was open. -/
theorem levels_eq_nil {stop : Nat} (h : ∀ d ∈ nesting.finish stop, d.closed = true) :
    nesting.levels = [] := by
  rcases List.eq_nil_or_concat nesting.levels with hnil | ⟨inner, outermost, hlevels⟩
  · exact hnil
  · -- the outermost open collection is a form of the text
    rw [List.concat_eq_append] at hlevels
    have hform := h (Level.close _ stop false) (by
      rw [finish, hlevels, List.foldl_append]
      exact List.mem_append_right _ List.mem_cons_self)
    cases hform

end Nesting

namespace Reader

/-- The reader, if a text of `n` bytes with the given forms comes first. -/
def behind (n : Nat) (forms : List Datum) (r : Reader) : Reader :=
  ⟨r.offset + n, r.mode.shift n, r.nesting.behind n forms⟩

variable (n : Nat) (forms : List Datum)

theorem step_behind (r : Reader) (c : Char) :
    (r.behind n forms).step c = relocate n (behind n forms) (r.step c) := by
  have hnesting := foldlM_relocate (Nesting.apply_behind n forms) (r.mode.step r.offset c).1
    r.nesting
  simp only [Reader.step, behind, ScanMode.step_shift, hnesting]
  cases (r.mode.step r.offset c).1.foldlM Nesting.apply r.nesting with
  | error e => rfl
  | ok nesting =>
    simp only [relocate, Except.map, behind, Nat.add_right_comm r.offset n]

theorem finish_behind (r : Reader) :
    (r.behind n forms).finish = relocate n (fun read => forms ++ shiftAll n read) r.finish := by
  obtain ⟨offset, mode, nesting⟩ := r
  have hfinish := fun nesting : Nesting => nesting.finish_behind n forms offset
  cases mode with
  | quoted start text escaped => rfl
  | word start text =>
    have hadd := nesting.add_behind n forms
      (.token (Token.ofWord text.toList) ⟨start, offset⟩ text)
    exact congrArg Except.ok ((congrArg (·.finish (offset + n)) hadd).trans (hfinish _))
  | between => exact congrArg Except.ok (hfinish nesting)
  | comment => exact congrArg Except.ok (hfinish nesting)

/-- Reading on behind another text gives what reading alone gives, further back. -/
theorem run_behind (r : Reader) (cs : List Char) :
    (cs.foldlM step (r.behind n forms)).bind finish =
      relocate n (fun read => forms ++ shiftAll n read) ((cs.foldlM step r).bind finish) := by
  have hrun := foldlM_relocate (g := id) (step_behind n forms) cs r
  rw [List.map_id] at hrun
  rw [hrun]
  cases cs.foldlM step r with
  | error e => rfl
  | ok r' => exact finish_behind n forms r'

/-- Behind a text with nothing left open, a newline brings the reader back to its start: it ends a
word or a comment. -/
theorem step_newline {r : Reader} {forms : List Datum} (h : r.finish = .ok forms)
    (hclosed : ∀ d ∈ forms, d.closed = true) :
    r.step '\n' = .ok (start.behind (r.offset + '\n'.utf8Size) forms) := by
  have hstart : start.behind (r.offset + '\n'.utf8Size) forms =
      ⟨r.offset + '\n'.utf8Size, .between, ⟨[], forms⟩⟩ := by
    simp [behind, start, Nesting.behind, Nesting.empty, ScanMode.shift, shiftAll]
  -- with no open level, the data read so far are the forms
  have hdone : ∀ nesting : Nesting, nesting.finish r.offset = forms → nesting = ⟨[], forms⟩ := by
    intro nesting hfinish
    have hnone : ∀ d ∈ nesting.finish r.offset, d.closed = true := by rwa [hfinish]
    have hnil := nesting.levels_eq_nil hnone
    obtain ⟨levels, read⟩ := nesting
    obtain rfl : levels = [] := hnil
    simpa [Nesting.finish] using hfinish
  rw [hstart]
  obtain ⟨offset, mode, nesting⟩ := r
  cases mode with
  | quoted start text escaped => cases h
  | comment =>
    have hnesting := hdone nesting (Except.ok.inj h)
    subst hnesting
    rfl
  | between =>
    have hnesting := hdone nesting (Except.ok.inj h)
    subst hnesting
    rfl
  | word start text =>
    have hcalm : IsCalm ⟨offset, .word start text, nesting⟩ := trivial
    rw [finish_of_isCalm hcalm] at h
    rw [step_blank hcalm (by decide), hdone _ (Except.ok.inj h)]

end Reader

/-- Reading is compositional. Behind a text with all of its forms closed and a newline, a text is
read as it is read alone, with all offsets moved behind the first text; so are its errors, and the
collections that its end leaves unclosed. The first text may end in a word, a string or a comment,
and only its outermost collections have to be closed. -/
theorem read_append_newline {a : String} {forms : List Datum} (h : read a = .ok forms)
    (hclosed : ∀ d ∈ forms, d.closed = true) (b : String) :
    (∀ more, read b = .ok more →
      read (a ++ "\n" ++ b) = .ok (forms ++ shiftAll (Text.byteLength a.toList + 1) more)) ∧
    ∀ e, read b = .error e →
      read (a ++ "\n" ++ b) = .error (e.shift (Text.byteLength a.toList + 1)) := by
  obtain ⟨r, hrun, hfinish⟩ := ok_of_bind_eq_ok h
  obtain ⟨-, -, -, -, hoffset, -⟩ := Reader.fed_start.run hrun
  have hlength : r.offset + '\n'.utf8Size = Text.byteLength a.toList + 1 := by
    rw [hoffset]
    exact congrArg (· + 1) (Nat.zero_add _)
  have hnewline := Reader.step_newline hfinish hclosed
  rw [hlength] at hnewline
  have hwhole : read (a ++ "\n" ++ b) = relocate (Text.byteLength a.toList + 1)
      (fun more => forms ++ shiftAll (Text.byteLength a.toList + 1) more) (read b) := by
    have htext : (a ++ "\n" ++ b).toList = a.toList ++ '\n' :: b.toList := by simp
    rw [read, Reader.readChars, htext, foldlM_append_of_ok hrun, foldlM_cons_of_ok hnewline,
      Reader.run_behind]
    rfl
  constructor
  · intro more hmore
    rw [hwhole, hmore]
    rfl
  · intro e he
    rw [hwhole, he]
    rfl

/-- A text that ends in a comment with a bracket, then a text that leaves two collections open, or
one with a bracket too many. -/
theorem read_append_newline_comment :
    read "(ä \"[\") ; (" = .ok [.group .list ⟨0, 8⟩ true [.token .symbol ⟨1, 3⟩ "ä",
      .token .literal ⟨4, 7⟩ "\"[\""]] ∧
    read ("(ä \"[\") ; (" ++ "\n" ++ "(g [1") = .ok [
      .group .list ⟨0, 8⟩ true [.token .symbol ⟨1, 3⟩ "ä", .token .literal ⟨4, 7⟩ "\"[\""],
      .group .list ⟨13, 18⟩ false [.token .symbol ⟨14, 15⟩ "g",
        .group .vector ⟨16, 18⟩ false [.token .literal ⟨17, 18⟩ "1"]]] ∧
    read ("(ä \"[\") ; (" ++ "\n" ++ "x)") = .error (.unmatched .list 14) := by
  have h : read "(ä \"[\") ; (" = .ok [.group .list ⟨0, 8⟩ true [.token .symbol ⟨1, 3⟩ "ä",
      .token .literal ⟨4, 7⟩ "\"[\""]] := rfl
  have hclosed : ∀ d ∈ [Datum.group .list ⟨0, 8⟩ true [.token .symbol ⟨1, 3⟩ "ä",
      .token .literal ⟨4, 7⟩ "\"[\""]], d.closed = true := by
    intro d hd
    rw [List.mem_singleton.1 hd]
    rfl
  have hmore : read "(g [1" = .ok [.group .list ⟨0, 5⟩ false [.token .symbol ⟨1, 2⟩ "g",
      .group .vector ⟨3, 5⟩ false [.token .literal ⟨4, 5⟩ "1"]]] := rfl
  have herror : read "x)" = .error (.unmatched .list 1) := rfl
  have hlength : Text.byteLength "(ä \"[\") ; (".toList = 12 := rfl
  have hopen := (read_append_newline h hclosed "(g [1").1 _ hmore
  have hfail := (read_append_newline h hclosed "x)").2 _ herror
  rw [hlength] at hopen hfail
  exact ⟨h, hopen, hfail⟩

end PhelAssist
