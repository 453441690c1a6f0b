import PhelAssist.Datum.Lexeme
import PhelAssist.Text.Bytes

namespace PhelAssist

/-- Why a text, with or without a cursor marker, cannot be read. -/
inductive ReadError where
  | unmatched (c : Collection) (offset : Nat)
  | mismatched (c : Collection) (offset : Nat)
  | unterminatedString (start : Nat)
  | secondCursor
  deriving DecidableEq, Repr

def ReadError.message : ReadError → String
  | unmatched c offset => s!"unmatched '{c.closing}' at offset {offset}"
  | mismatched c offset => s!"mismatched '{c.closing}' at offset {offset}"
  | unterminatedString start => s!"unterminated string starting at offset {start}"
  | secondCursor => "fixture has more than one cursor marker"

/-- A collection whose closing delimiter has not been seen. -/
structure Level where
  collection : Collection
  start : Nat
  items : List Datum
  deriving Repr

def Level.close (l : Level) (stop : Nat) (closed : Bool) : Datum :=
  .group l.collection ⟨l.start, stop⟩ closed l.items

/-- The data read so far: complete top-level forms, and the open collections from the innermost
outwards. -/
structure Nesting where
  levels : List Level
  forms : List Datum
  deriving Repr

namespace Nesting

def empty : Nesting := ⟨[], []⟩

/-- Puts a complete datum at the end of the innermost open collection. -/
def add (n : Nesting) (d : Datum) : Nesting :=
  match n.levels with
  | [] => ⟨[], n.forms ++ [d]⟩
  | l :: ls => ⟨⟨l.collection, l.start, l.items ++ [d]⟩ :: ls, n.forms⟩

def apply (n : Nesting) : Lexeme → Except ReadError Nesting
  | .token kind span text => .ok (n.add (.token kind span text))
  | .opening c offset => .ok ⟨⟨c, offset, []⟩ :: n.levels, n.forms⟩
  | .closing c offset =>
    match n.levels with
    | [] => .error (.unmatched c offset)
    | l :: ls =>
      if l.collection = c then
        .ok (add ⟨ls, n.forms⟩ (l.close (offset + c.closing.utf8Size) true))
      else .error (.mismatched c offset)

/-- Closes what is still open at the end of the text, innermost first. -/
def finish (n : Nesting) (stop : Nat) : List Datum :=
  n.forms ++ n.levels.foldl
    (fun inner l => [Level.close ⟨l.collection, l.start, l.items ++ inner⟩ stop false]) []

end Nesting

/-- A reader in the middle of a text. -/
structure Reader where
  offset : Nat
  mode : ScanMode
  nesting : Nesting
  deriving Repr

namespace Reader

def start : Reader := ⟨0, .between, .empty⟩

def step (r : Reader) (c : Char) : Except ReadError Reader :=
  let (lexemes, mode) := r.mode.step r.offset c
  (lexemes.foldlM Nesting.apply r.nesting).map fun nesting =>
    ⟨r.offset + c.utf8Size, mode, nesting⟩

/-- Ends the text here: a word ends with it, a string must not be open. -/
def finish (r : Reader) : Except ReadError (List Datum) :=
  match r.mode with
  | .quoted start _ _ => .error (.unterminatedString start)
  | .word start text =>
    (r.nesting.apply (.ofWord start r.offset text)).map (·.finish r.offset)
  | .between | .comment => .ok (r.nesting.finish r.offset)

def readChars (cs : List Char) : Except ReadError (List Datum) :=
  (cs.foldlM step start).bind finish

end Reader

/-- All top-level forms of a source text. Collections left open are closed by its end. -/
def read (source : String) : Except ReadError (List Datum) := Reader.readChars source.toList

end PhelAssist
