import PhelAssist.Span
import PhelAssist.Text.Bytes

namespace PhelAssist

/-- A region of inserted text that the user fills in. Its default text is its name. -/
structure Slot where
  name : String
  span : Span
  deriving DecidableEq, Repr

/-- Text to insert, with the regions to fill in and the byte offset where the caret lands. -/
structure Template where
  text : String
  slots : List Slot
  caret : Nat
  deriving DecidableEq, Repr

/-- A part of a marked text: a character, a region to fill in, or the place of the caret. -/
inductive Mark where
  | text (c : Char)
  | region (name : List Char)
  | caret
  deriving DecidableEq, Repr

namespace Mark

/-- Reads marked text. A dollar sign with `0` marks the caret, one with a name in braces a region;
any other dollar sign, also before braces that never close, is text. -/
def scan : List Char → List Mark
  | [] => []
  | '$' :: '0' :: rest => caret :: scan rest
  | '$' :: '\x7b' :: rest =>
    if '\x7d' ∈ rest then
      region (rest.takeWhile (· ≠ '\x7d')) :: scan (rest.dropWhile (· ≠ '\x7d')).tail
    else text '$' :: scan ('\x7b' :: rest)
  | c :: rest => text c :: scan rest
termination_by cs => cs.length
decreasing_by
  all_goals simp only [List.length_cons, List.length_tail]
  all_goals first
    | omega
    | have := (List.dropWhile_sublist (l := rest) (· ≠ '\x7d')).length_le
      omega

/-- The text that a part leaves behind. -/
def chars : Mark → List Char
  | text c => [c]
  | region name => name
  | caret => []

/-- The regions of a marked text whose first character stands at `offset`. -/
def slots (offset : Nat) : List Mark → List Slot
  | [] => []
  | region name :: rest =>
    let stop := offset + Text.byteLength name
    ⟨String.ofList name, ⟨offset, stop⟩⟩ :: slots stop rest
  | mark :: rest => slots (offset + Text.byteLength mark.chars) rest

/-- The last caret of a marked text whose first character stands at `offset`. -/
def caret? (offset : Nat) : List Mark → Option Nat
  | [] => none
  | caret :: rest => (caret? offset rest).or (some offset)
  | mark :: rest => caret? (offset + Text.byteLength mark.chars) rest

end Mark

namespace Template

/-- The template that the parts of a marked text describe. Without a mark the caret goes to the
first region, or to the end. -/
def ofMarks (marks : List Mark) : Template :=
  let text := marks.flatMap Mark.chars
  let slots := Mark.slots 0 marks
  let start? := slots.head?.map (·.span.start)
  ⟨String.ofList text, slots,
    ((Mark.caret? 0 marks).or start?).getD (Text.byteLength text)⟩

/-- The template that a marked text describes. -/
def ofMarked (marked : String) : Template := ofMarks (Mark.scan marked.toList)

/-- Plain text with the caret at its end. -/
def ofText (text : String) : Template := ⟨text, [], Text.byteLength text.toList⟩

/-- Whether inserting the text as it stands also puts the caret right. -/
def IsPlain (t : Template) : Prop :=
  t.slots = [] ∧ t.caret = Text.byteLength t.text.toList

instance (t : Template) : Decidable t.IsPlain := inferInstanceAs (Decidable (_ ∧ _))

end Template

end PhelAssist
