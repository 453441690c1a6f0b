import PhelAssist.Datum

namespace PhelAssist

/-- What a single character means between words. -/
inductive CharClass where
  | blank
  | comment
  | opening (c : Collection)
  | closing (c : Collection)
  | quote
  | word
  deriving DecidableEq, Repr

/-- Commas are blanks. Every character that is no delimiter belongs to a word. -/
def CharClass.of (c : Char) : CharClass :=
  if c = ' ' ∨ c = '\t' ∨ c = '\n' ∨ c = '\r' ∨ c = ',' then blank
  else if c = ';' then comment
  else if c = '(' then opening .list
  else if c = '[' then opening .vector
  else if c = '\x7b' then opening .map
  else if c = ')' then closing .list
  else if c = ']' then closing .vector
  else if c = '\x7d' then closing .map
  else if c = '"' then quote
  else word

/-- Numbers start with a digit, after at most one sign. -/
def isLiteralWord (word : List Char) : Bool :=
  word = ['n', 'i', 'l'] || word = ['t', 'r', 'u', 'e'] || word = ['f', 'a', 'l', 's', 'e'] ||
    match word with
    | '-' :: c :: _ | '+' :: c :: _ => c.isDigit
    | c :: _ => c.isDigit
    | [] => false

/-- The kind of a word that stands outside strings. -/
def Token.ofWord (word : List Char) : Token :=
  match word with
  | ':' :: _ => .keyword
  | _ => if isLiteralWord word then .literal else .symbol

/-- A piece of source text that matters for its structure. -/
inductive Lexeme where
  | opening (c : Collection) (offset : Nat)
  | closing (c : Collection) (offset : Nat)
  | token (kind : Token) (span : Span) (text : String)
  deriving DecidableEq, Repr

/-- The lexeme of a word that ends before `stop`. -/
def Lexeme.ofWord (start stop : Nat) (word : String) : Lexeme :=
  token (Token.ofWord word.toList) ⟨start, stop⟩ word

/-- Where a scan stands: between lexemes, in a comment, or in a word or string of which the given
text has been seen. -/
inductive ScanMode where
  | between
  | comment
  | word (start : Nat) (text : String)
  | quoted (start : Nat) (text : String) (escaped : Bool)
  deriving DecidableEq, Repr

namespace ScanMode

/-- Scans the character at `offset` between lexemes. -/
def enter (offset : Nat) (c : Char) : List Lexeme × ScanMode :=
  match CharClass.of c with
  | .blank => ([], between)
  | .comment => ([], comment)
  | .opening k => ([.opening k offset], between)
  | .closing k => ([.closing k offset], between)
  | .quote => ([], quoted offset (String.singleton c) false)
  | .word => ([], word offset (String.singleton c))

/-- Scans the character at `offset`. A delimiter ends a word and is scanned on its own; a newline
ends a comment. -/
def step (offset : Nat) (c : Char) : ScanMode → List Lexeme × ScanMode
  | between => enter offset c
  | comment => ([], if c = '\n' then between else comment)
  | word start text =>
    if CharClass.of c = .word then ([], word start (text.push c))
    else
      let (lexemes, mode) := enter offset c
      (Lexeme.ofWord start offset text :: lexemes, mode)
  | quoted start text escaped =>
    let text := text.push c
    if escaped then ([], quoted start text false)
    else if c = '\\' then ([], quoted start text true)
    else if c = '"' then ([.token .literal ⟨start, offset + c.utf8Size⟩ text], between)
    else ([], quoted start text false)

end ScanMode

end PhelAssist
