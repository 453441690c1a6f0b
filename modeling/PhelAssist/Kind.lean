namespace PhelAssist

/-- The three delimited collections of Phel. -/
inductive Collection where
  | list
  | vector
  | map
  deriving DecidableEq, Repr

/-- The leaves of Phel source. Numbers, strings, booleans and `nil` are literals. -/
inductive Token where
  | symbol
  | keyword
  | literal
  deriving DecidableEq, Repr

/-- What a node of a syntax tree is. A `form` wraps every element of the file or of a collection;
an `error` is a region that a parser could not make sense of. -/
inductive NodeKind where
  | file
  | collection (c : Collection)
  | form
  | token (t : Token)
  | error
  deriving DecidableEq, Repr

namespace Collection

def opening : Collection → Char
  | list => '('
  | vector => '['
  | map => '\x7b'

def closing : Collection → Char
  | list => ')'
  | vector => ']'
  | map => '\x7d'

end Collection

namespace NodeKind

/-- Leaf kinds, which carry source text. -/
def isWord : NodeKind → Bool
  | token _ => true
  | _ => false

/-- Delimited kinds, which open a nesting level. -/
def isDelimited : NodeKind → Bool
  | collection _ => true
  | _ => false

/-- Kinds whose children are wrapped in forms. -/
def holdsForms : NodeKind → Bool
  | file | collection _ => true
  | _ => false

def name : NodeKind → String
  | file => "File"
  | collection .list => "List"
  | collection .vector => "Vector"
  | collection .map => "Map"
  | form => "Form"
  | token .symbol => "Symbol"
  | token .keyword => "Keyword"
  | token .literal => "Literal"
  | error => "Error"

/-- Every kind, outermost first. -/
def all : List NodeKind :=
  [file, collection .list, collection .vector, collection .map, form, token .symbol,
    token .keyword, token .literal, error]

def ofName? (s : String) : Option NodeKind := all.find? fun k => k.name = s

end NodeKind

end PhelAssist
