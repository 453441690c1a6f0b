import PhelAssist.Span
import PhelAssist.Text.Bytes

namespace PhelAssist

/-- A place in a text as editors count it: lines from 0, and characters from the start of the
line. The counts have no bound here. Editors hold them in 32 bits, which comes to the same for a text
of fewer than 2^32 lines and characters. -/
@[ext] structure Position where
  line : Nat
  character : Nat
  deriving DecidableEq, Repr

namespace Text

/-- Characters that end a line: LF, VT, FF, CR, NEL, and the line and paragraph separators. -/
def IsLineBreak (c : Char) : Prop :=
  c ∈ ['\n', '\x0b', '\x0c', '\r', '\u0085', '\u2028', '\u2029']

instance (c : Char) : Decidable (IsLineBreak c) := inferInstanceAs (Decidable (_ ∈ _))

/-- Puts a character in front of the first line. -/
def consToFirst (c : Char) : List (List Char) → List (List Char)
  | [] => [[c]]
  | line :: lines => (c :: line) :: lines

/-- The lines of a text, each with the break that ends it. CR and LF together are one break; what
follows the last break is a line too, if only an empty one. -/
def lines : List Char → List (List Char)
  | [] => [[]]
  | '\r' :: '\n' :: rest => ['\r', '\n'] :: lines rest
  | c :: rest => if IsLineBreak c then [c] :: lines rest else consToFirst c (lines rest)

/-- Byte offset of a position. A character past the end of its line counts as that end, which lies
behind the break. -/
def offsetAt? (cs : List Char) (p : Position) : Option Nat :=
  match (lines cs).drop p.line with
  | [] => none
  | line :: _ =>
    some (byteLength ((lines cs).take p.line).flatten + byteLength (line.take p.character))

/-- The number of the character that holds a byte; past the last byte, the number of characters. -/
def charIndex? : List Char → Nat → Option Nat
  | [], 0 => some 0
  | [], _ + 1 => none
  | c :: cs, n => if n < c.utf8Size then some 0 else (charIndex? cs (n - c.utf8Size)).map (· + 1)

/-- Counts characters off line by line. -/
def locate : List (List Char) → Nat → Position
  | line :: next :: rest, i =>
    if i < line.length then ⟨0, i⟩
    else
      let p := locate (next :: rest) (i - line.length)
      ⟨p.line + 1, p.character⟩
  | _, i => ⟨0, i⟩

/-- Position of a byte offset. Inside a character this is the position of the character. -/
def positionAt? (cs : List Char) (offset : Nat) : Option Position :=
  (charIndex? cs offset).map (locate (lines cs))

/-- Where a span starts and ends. -/
def rangeOf? (cs : List Char) (span : Span) : Option (Position × Position) := do
  return (← positionAt? cs span.start, ← positionAt? cs span.stop)

end Text

end PhelAssist
