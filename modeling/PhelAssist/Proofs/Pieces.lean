import PhelAssist.Proofs.Marks

namespace PhelAssist

namespace Mark

theorem scan_text {cs : List Char} (h : '$' ∉ cs) (rest : List Char) :
    scan (cs ++ rest) = cs.map text ++ scan rest := by
  induction cs with
  | nil => rfl
  | cons c cs ih =>
    obtain ⟨hc, hcs⟩ := List.ne_and_not_mem_of_not_mem_cons h
    have hfirst : scan (c :: (cs ++ rest)) = text c :: scan (cs ++ rest) := by
      simp [scan, hc.symm]
    rw [List.cons_append, hfirst, ih hcs]
    rfl

/-- Up to the first closing brace everything belongs to the name, dollar signs included. -/
theorem scan_region {name : List Char} (h : '\x7d' ∉ name) (rest : List Char) :
    scan ('$' :: '\x7b' :: (name ++ '\x7d' :: rest)) = region name :: scan rest := by
  have hname : ∀ c ∈ name, decide (c ≠ '\x7d') = true := by
    intro c hc
    exact decide_eq_true fun heq => h (heq ▸ hc)
  have htake : (name ++ '\x7d' :: rest).takeWhile (· ≠ '\x7d') = name := by
    rw [List.takeWhile_append_of_pos hname]
    simp
  have hdrop : (name ++ '\x7d' :: rest).dropWhile (· ≠ '\x7d') = '\x7d' :: rest := by
    rw [List.dropWhile_append_of_pos hname]
    simp
  have hclosed : '\x7d' ∈ name ++ '\x7d' :: rest := by simp
  rw [scan, if_pos hclosed, htake, hdrop]
  rfl

theorem scan_caret (rest : List Char) : scan ('$' :: '0' :: rest) = caret :: scan rest := by
  rw [scan]

end Mark

/-- What an author puts together into a marked text. -/
inductive Piece where
  | literal (text : String)
  | region (name : String)
  | caret
  deriving DecidableEq, Repr

namespace Piece

/-- A literal without dollar signs, or a name that does not close its own braces. -/
def IsAllowed : Piece → Prop
  | literal text => '$' ∉ text.toList
  | region name => '\x7d' ∉ name.toList
  | caret => True

instance (p : Piece) : Decidable p.IsAllowed :=
  match p with
  | literal text => inferInstanceAs (Decidable ('$' ∉ text.toList))
  | region name => inferInstanceAs (Decidable ('\x7d' ∉ name.toList))
  | caret => inferInstanceAs (Decidable True)

def render : Piece → List Char
  | literal text => text.toList
  | region name => '$' :: '\x7b' :: (name.toList ++ ['\x7d'])
  | caret => ['$', '0']

/-- What a piece adds to the text that is inserted. -/
def chars : Piece → List Char
  | literal text => text.toList
  | region name => name.toList
  | caret => []

def slot? : Nat × Piece → Option Slot
  | (offset, region name) => some ⟨name, ⟨offset, offset + Text.byteLength name.toList⟩⟩
  | _ => none

def caretAt? : Nat × Piece → Option Nat
  | (offset, caret) => some offset
  | _ => none

/-- The slots of pieces that are written one behind the other. -/
def slots (pieces : List Piece) : List Slot := (Text.placed chars 0 pieces).filterMap slot?

def carets (pieces : List Piece) : List Nat := (Text.placed chars 0 pieces).filterMap caretAt?

def marks : Piece → List Mark
  | literal text => text.toList.map .text
  | region name => [.region name.toList]
  | caret => [.caret]

theorem scan_render {pieces : List Piece} (h : ∀ p ∈ pieces, p.IsAllowed) :
    Mark.scan (pieces.flatMap render) = pieces.flatMap marks := by
  induction pieces with
  | nil => simp [Mark.scan]
  | cons p pieces ih =>
    have hp := h p List.mem_cons_self
    have hrest := ih fun q hq => h q (List.mem_cons_of_mem p hq)
    rw [List.flatMap_cons, List.flatMap_cons, ← hrest]
    cases p with
    | literal text => exact Mark.scan_text hp _
    | region name =>
      rw [render, marks, List.cons_append, List.cons_append, List.append_assoc]
      exact Mark.scan_region hp _
    | caret => exact Mark.scan_caret _

theorem flatMap_marks (p : Piece) : p.marks.flatMap Mark.chars = p.chars := by
  cases p with
  | literal text => simp [marks, chars, Mark.chars, List.flatMap_map]
  | region name => simp [marks, chars, Mark.chars]
  | caret => rfl

theorem flatMap_flatMap_marks (pieces : List Piece) :
    (pieces.flatMap marks).flatMap Mark.chars = pieces.flatMap chars := by
  rw [List.flatMap_assoc]
  exact congrArg (List.flatMap · pieces) (funext flatMap_marks)

/-- What is found in the marks of pieces is found in the pieces themselves. -/
theorem filterMap_placed_marks {β : Type} {f : Nat × Mark → Option β} {g : Nat × Piece → Option β}
    (htext : ∀ offset c, f (offset, .text c) = none)
    (hliteral : ∀ offset text, g (offset, literal text) = none)
    (hregion : ∀ offset name, f (offset, .region name.toList) = g (offset, region name))
    (hcaret : ∀ offset, f (offset, .caret) = g (offset, caret)) (offset : Nat)
    (pieces : List Piece) :
    (Text.placed Mark.chars offset (pieces.flatMap marks)).filterMap f =
      (Text.placed chars offset pieces).filterMap g := by
  apply Text.filterMap_placed_flatMap chars flatMap_marks
  intro offset p
  cases p with
  | literal text =>
    rw [hliteral]
    apply Text.filterMap_placed_eq_nil
    intro mark hmark offset
    obtain ⟨c, -, rfl⟩ := List.mem_map.1 hmark
    exact htext offset c
  | region name =>
    rw [← hregion]
    cases hmark : f (offset, .region name.toList) <;> simp [marks, hmark]
  | caret =>
    rw [← hcaret]
    cases hmark : f (offset, .caret) <;> simp [marks, hmark]

/-- Marked text that is put together out of pieces is taken apart into the same pieces. -/
theorem ofMarked_render {pieces : List Piece} (h : ∀ p ∈ pieces, p.IsAllowed) :
    let t := Template.ofMarked (String.ofList (pieces.flatMap render))
    t.text = String.ofList (pieces.flatMap chars) ∧ t.slots = slots pieces ∧
      t.caret = ((carets pieces).getLast?.or ((slots pieces).head?.map (·.span.start))).getD
        (Text.byteLength (pieces.flatMap chars)) := by
  have hslots : Mark.slots 0 (pieces.flatMap marks) = slots pieces := by
    rw [Mark.slots_eq_placed]
    apply filterMap_placed_marks
    · intro offset c
      rfl
    · intro offset text
      rfl
    · intro offset name
      simp [Mark.slot?, slot?]
    · intro offset
      rfl
  have hcarets : Mark.caret? 0 (pieces.flatMap marks) = (carets pieces).getLast? := by
    rw [Mark.caret?_eq_placed]
    apply congrArg List.getLast?
    apply filterMap_placed_marks
    · intro offset c
      rfl
    · intro offset text
      rfl
    · intro offset name
      rfl
    · intro offset
      rfl
  rw [Template.ofMarked, String.toList_ofList, scan_render h, Template.ofMarks,
    flatMap_flatMap_marks, hslots, hcarets]
  exact ⟨rfl, rfl, rfl⟩

/-- Names with dollar signs in them, a digit behind a caret, and pieces without text. -/
theorem ofMarked_render_adjacent :
    let pieces := [literal "é\x7b", region "$0\x7bä", caret, literal "0\x7d", region "", caret,
      region "$"]
    let t := Template.ofMarked "é\x7b$\x7b$0\x7bä\x7d$00\x7d$\x7b\x7d$0$\x7b$\x7d"
    (∀ p ∈ pieces, p.IsAllowed) ∧ t.text = "é\x7b$0\x7bä0\x7d$" ∧
      t.slots = [⟨"$0\x7bä", ⟨3, 8⟩⟩, ⟨"", ⟨10, 10⟩⟩, ⟨"$", ⟨10, 11⟩⟩] ∧ t.caret = 10 := by
  intro pieces t
  have hallowed : ∀ p ∈ pieces, p.IsAllowed := by decide
  have hmarked : String.ofList (pieces.flatMap render) =
      "é\x7b$\x7b$0\x7bä\x7d$00\x7d$\x7b\x7d$0$\x7b$\x7d" := rfl
  have hslots : slots pieces = [⟨"$0\x7bä", ⟨3, 8⟩⟩, ⟨"", ⟨10, 10⟩⟩, ⟨"$", ⟨10, 11⟩⟩] := by decide
  have hcarets : carets pieces = [8, 10] := by decide
  have hread := ofMarked_render hallowed
  rw [hmarked, hslots, hcarets] at hread
  exact ⟨hallowed, hread⟩

end Piece

end PhelAssist
