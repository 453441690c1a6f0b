namespace PhelAssist

/-- A half-open range of byte offsets in a source text. Nothing forces `start ≤ stop`: a range from
outside may be inverted, and is then empty. -/
@[ext] structure Span where
  start : Nat
  stop : Nat
  deriving DecidableEq, Repr, Inhabited

namespace Span

def length (s : Span) : Nat := s.stop - s.start

def IsEmpty (s : Span) : Prop := s.length = 0

/-- A cursor right after the last character still belongs to the word being typed. -/
def Reaches (s : Span) (offset : Nat) : Prop := s.start ≤ offset ∧ offset ≤ s.stop

/-- A cursor between two delimiters, with neither of them cut off. -/
def Surrounds (s : Span) (offset : Nat) : Prop := s.start < offset ∧ offset < s.stop

def Covers (s other : Span) : Prop := s.start ≤ other.start ∧ other.stop ≤ s.stop

instance (s : Span) : Decidable s.IsEmpty := inferInstanceAs (Decidable (_ = _))

instance (s : Span) (offset : Nat) : Decidable (s.Reaches offset) :=
  inferInstanceAs (Decidable (_ ∧ _))

instance (s : Span) (offset : Nat) : Decidable (s.Surrounds offset) :=
  inferInstanceAs (Decidable (_ ∧ _))

instance (s other : Span) : Decidable (s.Covers other) := inferInstanceAs (Decidable (_ ∧ _))

theorem Surrounds.reaches {s : Span} {offset : Nat} (h : s.Surrounds offset) :
    s.Reaches offset :=
  ⟨Nat.le_of_lt h.1, Nat.le_of_lt h.2⟩

/-- The text of a span, as error messages quote it. -/
def render (s : Span) : String := s!"{s.start}..{s.stop}"

end Span

end PhelAssist
