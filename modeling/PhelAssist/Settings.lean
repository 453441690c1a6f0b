import PhelAssist.Settings.Json
import PhelAssist.Text.Blank

namespace PhelAssist

structure CompletionSettings where
  /-- Offer names bound around the cursor. -/
  localSymbols : Bool := true
  /-- Report a failed request as a candidate that inserts nothing. -/
  errorPlaceholders : Bool := true
  deriving DecidableEq, Repr

structure LoggingSettings where
  level : Option String := none
  noColor : Bool := false
  /-- Write a session log as well. -/
  fileLogging : Bool := false
  /-- The directory of session logs; the user's cache directory has it otherwise. -/
  logDir : Option String := none
  deriving DecidableEq, Repr

structure Settings where
  completion : CompletionSettings := {}
  logging : LoggingSettings := {}
  deriving DecidableEq, Repr

/-- Why there is no configuration. -/
inductive SettingsError where
  | unreadableText
  | invalidOptions
  deriving DecidableEq, Repr

def SettingsError.message : SettingsError → String
  | unreadableText => "failed to parse engine configuration"
  | invalidOptions => "invalid engine configuration in initialization options"

namespace Json

/-- The value of a field that stands at most once. -/
def fieldOnce? (fields : List (Option String × Json)) (name : String) : Option (Option Json) :=
  match fields.filter fun f => f.1 = some name with
  | [] => some none
  | [f] => some (some f.2)
  | _ => none

/-- The named fields of a record. A record is an object, where other fields are ignored and none of
the named ones may repeat, or an array of the first few values in order. -/
def record? (names : List String) : Json → Option (List (Option Json))
  | array items =>
    if items.length ≤ names.length then
      some (items.map some ++ List.replicate (names.length - items.length) none)
    else none
  | object fields =>
    if fields.all (·.1.isSome) then names.mapM (fieldOnce? fields) else none
  | _ => none

/-- The value of a field, or its default if it is not there. -/
def orDefault {α : Type} (read? : Json → Option α) (default : α) : Option Json → Option α
  | none => some default
  | some j => read? j

def bool? : Json → Option Bool
  | bool b => some b
  | _ => none

/-- A text that may be null. -/
def text? : Json → Option (Option String)
  | null => some none
  | string (some s) => some (some s)
  | _ => none

end Json

namespace CompletionSettings

def ofJson? (j : Json) : Option CompletionSettings := do
  match ← j.record? ["localSymbols", "errorPlaceholders"] with
  | [localSymbols, errorPlaceholders] =>
    return {
      localSymbols := ← Json.orDefault Json.bool? true localSymbols
      errorPlaceholders := ← Json.orDefault Json.bool? true errorPlaceholders }
  | _ => none

end CompletionSettings

namespace LoggingSettings

def ofJson? (j : Json) : Option LoggingSettings := do
  match ← j.record? ["level", "noColor", "fileLogging", "logDir"] with
  | [level, noColor, fileLogging, logDir] =>
    return {
      level := ← Json.orDefault Json.text? none level
      noColor := ← Json.orDefault Json.bool? false noColor
      fileLogging := ← Json.orDefault Json.bool? false fileLogging
      logDir := ← Json.orDefault Json.text? none logDir }
  | _ => none

end LoggingSettings

namespace Settings

def ofJson? (j : Json) : Option Settings := do
  match ← j.record? ["completion", "logging"] with
  | [completion, logging] =>
    return {
      completion := ← Json.orDefault CompletionSettings.ofJson? {} completion
      logging := ← Json.orDefault LoggingSettings.ofJson? {} logging }
  | _ => none

/-- The configuration that a text holds. -/
def ofText (text : String) : Except SettingsError Settings :=
  match (Json.parse? text).bind ofJson? with
  | some config => .ok config
  | none => .error .unreadableText

/-- The configuration that a client sends when it starts. Null stands for the defaults. -/
def ofOptions : Json → Except SettingsError Settings
  | .null => .ok {}
  | j =>
    match ofJson? j with
    | some config => .ok config
    | none => .error .invalidOptions

/-- Replaces the log level, unless the new one is missing or blank. -/
def withLogLevel (config : Settings) : Option String → Settings
  | some level =>
    if Text.isBlank level then config
    else { config with logging := { config.logging with level := some level } }
  | none => config

/-- The defaults, with the log level that the environment asks for. -/
def ofEnvironment (level : Option String) : Settings := ({} : Settings).withLogLevel level

end Settings

end PhelAssist
