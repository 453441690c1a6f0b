namespace PhelAssist.Words

/-- Forms whose first vector holds parameters. -/
def function : List String := ["defn", "defn-", "defmacro", "defmacro-", "fn"]

/-- Forms whose first vector holds pairs of a pattern and a value. -/
def letLike : List String := ["let", "loop", "binding", "if-let", "when-let"]

/-- Forms whose first vector binds every element but the last. -/
def loopLike : List String := ["foreach"]

/-- Forms that give a name to the element after the operator. -/
def definition : List String :=
  ["def", "defn", "defn-", "defmacro", "defmacro-", "defstruct", "definterface", "declare"]

def arithmetic : List String := ["+", "-", "*", "/", "%", "**", "inc", "dec"]

def comparison : List String := ["=", "<", ">", "<=", ">="]

def collection : List String := ["map", "filter", "reduce", "first", "rest"]

def special : List String :=
  ["def", "defn", "let", "if", "when", "do", "fn", "quote", "var", "throw", "try"]

/-- Marks the rest of the arguments in a pattern, and never binds a name. -/
def restSign : String := "&"

end PhelAssist.Words
