import PhelAssist.Scope.Words

namespace PhelAssist

/-- What a defining form defines. -/
inductive DefinedAs where
  | function
  | expander
  | value
  | record
  | generic
  deriving DecidableEq, Repr

def DefinedAs.ofOperator : Option String → DefinedAs
  | some "defn" | some "defn-" => function
  | some "defmacro" | some "defmacro-" => expander
  | some "def" => value
  | some "defstruct" => record
  | _ => generic

/-- What a library function is for, as far as its name tells. -/
inductive LibraryRole where
  | predicate
  | arithmetic
  | comparison
  | collection
  | core
  deriving DecidableEq, Repr

def LibraryRole.ofName (name : String) : LibraryRole :=
  if name.toList.getLast? = some '?' then predicate
  else if name ∈ Words.arithmetic then arithmetic
  else if name ∈ Words.comparison then comparison
  else if name ∈ Words.collection then collection
  else core

/-- What a symbol is. -/
inductive Category where
  | parameter
  | letBinding
  | definition (kind : DefinedAs)
  | library (kind : LibraryRole)
  | specialForm
  | unknown
  deriving DecidableEq, Repr

namespace Category

/-- The words that documentation uses for a category. -/
def label : Category → String
  | parameter => "Function Parameter"
  | letBinding => "Let Binding"
  | definition .function => "Function Definition"
  | definition .expander => "Macro Definition"
  | definition .value => "Variable Definition"
  | definition .record => "Struct Definition"
  | definition .generic => "Definition"
  | library .predicate => "Predicate Function"
  | library .arithmetic => "Arithmetic Function"
  | library .comparison => "Comparison Function"
  | library .collection => "Collection Function"
  | library .core => "Core Function"
  | specialForm => "Special Form"
  | unknown => "Symbol"

def isLocal : Category → Bool
  | parameter | letBinding => true
  | _ => false

end Category

/-- How a name that is visible at a cursor was introduced. -/
inductive Binding where
  | parameter
  | letBinding
  | definition (kind : DefinedAs)
  deriving DecidableEq, Repr

/-- The place of a symbol that introduces a name. -/
inductive BindingPlace where
  | parameter
  | letBinding
  | definitionName
  deriving DecidableEq, Repr

end PhelAssist
