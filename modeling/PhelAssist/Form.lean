import PhelAssist.Kind

namespace PhelAssist

/-- A Phel expression without positions. The text of a keyword leaves out its colon. -/
inductive Form where
  | atom (kind : Token) (text : String)
  | group (collection : Collection) (items : List Form)
  deriving Repr

namespace Form

mutual

/-- Source text of a form: items are separated by single blanks. -/
def print : Form → String
  | atom .keyword name => ":" ++ name
  | atom _ text => text
  | group c items =>
    String.singleton c.opening ++ printItems items ++ String.singleton c.closing

def printItems : List Form → String
  | [] => ""
  | [item] => item.print
  | item :: next :: rest => item.print ++ " " ++ printItems (next :: rest)

end

end Form

/-- A whole file: top-level forms, one after the other. -/
structure Program where
  forms : List Form
  deriving Repr

namespace Program

/-- Source text of a program: each top-level form starts a line. -/
def print (p : Program) : String := "\n".intercalate (p.forms.map Form.print)

/-- The programs with one top-level form left out, in order. A program of one form is not made
smaller. -/
def smaller (p : Program) : List Program :=
  if 1 < p.forms.length then (List.range p.forms.length).map fun i => ⟨p.forms.eraseIdx i⟩
  else []

end Program

end PhelAssist
