namespace PhelAssist

inductive LogLevel where
  | info
  | warn
  | error
  deriving DecidableEq, Repr

structure LogLine where
  level : LogLevel
  message : String
  deriving DecidableEq, Repr

/-- A value together with what was logged on the way to it. -/
structure Logged (α : Type) where
  value : α
  log : List LogLine
  deriving DecidableEq, Repr

namespace Logged

/-- A value found without logging anything. -/
def quiet {α : Type} (value : α) : Logged α := ⟨value, []⟩

def map {α β : Type} (f : α → β) (l : Logged α) : Logged β := ⟨f l.value, l.log⟩

@[simp] theorem value_quiet {α : Type} (a : α) : (quiet a).value = a := rfl

@[simp] theorem value_map {α β : Type} (f : α → β) (l : Logged α) :
    (l.map f).value = f l.value := rfl

end Logged

end PhelAssist
