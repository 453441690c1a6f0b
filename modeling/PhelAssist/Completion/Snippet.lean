import PhelAssist.Completion.Template

namespace PhelAssist

/-- A part of a snippet as editors read it. -/
inductive SnippetPart where
  | text (chars : List Char)
  | tabStop (number : Nat) (default : List Char)
  | finalCaret
  deriving DecidableEq, Repr

namespace SnippetPart

/-- Characters with a meaning of their own are kept from it by a backslash. -/
def escape (c : Char) : List Char :=
  if c = '$' ∨ c = '\x7d' ∨ c = '\\' then ['\\', c] else [c]

def render : SnippetPart → List Char
  | text cs => cs.flatMap escape
  | tabStop n cs =>
    ['$', '\x7b'] ++ Nat.toDigits 10 n ++ [':'] ++ cs.flatMap escape ++ ['\x7d']
  | finalCaret => ['$', '0']

end SnippetPart

namespace Template

/-- A slot that lies in the text, with the text that it covers. -/
structure Region where
  span : Span
  default : List Char
  deriving DecidableEq, Repr

variable (t : Template)

/-- The slots that lie in the text, as they come. -/
def fitting : List Region :=
  t.slots.filterMap fun p =>
    (Text.slice? t.text.toList p.span.start p.span.stop).map fun default => ⟨p.span, default⟩

/-- The slots that lie in the text, from left to right. -/
def regions : List Region := t.fitting.mergeSort fun a b => a.span.start ≤ b.span.start

/-- Leaves out each region that starts before the end of the one kept before it. -/
def keepApart (cursor : Nat) : List Region → List Region
  | [] => []
  | r :: rest =>
    if r.span.start < cursor then keepApart cursor rest else r :: keepApart r.span.stop rest

/-- Whether the caret gets a stop of its own: it lies in the text and reaches no region. -/
def CaretStands : Prop :=
  Text.IsBoundary t.text.toList t.caret ∧ ∀ r ∈ t.regions, ¬ r.span.Reaches t.caret

instance : Decidable t.CaretStands := inferInstanceAs (Decidable (_ ∧ _))

def cutOut (start stop : Nat) : List Char := (Text.slice? t.text.toList start stop).getD []

/-- The text between two regions, with the caret if it stands there. -/
def gap (start stop : Nat) : List SnippetPart :=
  if t.CaretStands ∧ start ≤ t.caret ∧ t.caret ≤ stop then
    [.text (t.cutOut start t.caret), .finalCaret, .text (t.cutOut t.caret stop)]
  else [.text (t.cutOut start stop)]

/-- Regions become tab stops, numbered from left to right. -/
def partsFrom (cursor number : Nat) : List Region → List SnippetPart
  | [] => t.gap cursor (Text.byteLength t.text.toList)
  | r :: rest =>
    t.gap cursor r.span.start ++
      .tabStop number r.default :: partsFrom r.span.stop (number + 1) rest

def parts : List SnippetPart := t.partsFrom 0 1 (keepApart 0 t.regions)

/-- The template as a snippet. Slots and carets that do not fit the text are left out. -/
def snippet : String := String.ofList (t.parts.flatMap SnippetPart.render)

end Template

end PhelAssist
