import PhelAssist.Log.FileTree
import PhelAssist.Settings

namespace PhelAssist

/-- Session logs are kept for seven days. -/
def keptFor : Int := 7 * 24 * 60 * 60

def isSessionName (name : String) : Bool := name.startsWith "session-" && name.endsWith ".log"

/-- Whether a file is a session log of a directory that is past its time. -/
def IsExpiredLog (dir : Path) (f : Path × Int) : Prop :=
  f.1.dropLast = dir ∧ f.1.getLast?.any isSessionName ∧ keptFor < f.2

instance (dir : Path) (f : Path × Int) : Decidable (IsExpiredLog dir f) :=
  inferInstanceAs (Decidable (_ ∧ _))

/-- The directory of session logs: the one that is asked for, or one in the user's cache. -/
def LoggingSettings.directory (config : LoggingSettings) (cache : Path) :
    Except FileError WrittenPath :=
  match config.logDir with
  | some dir => WrittenPath.ofText dir
  | none => .ok (.ofPath (cache ++ ["phel-language-tools"]))

/-- Clears old session logs out of a directory and opens a new one under the given name. -/
def FileTree.openSession (tree : FileTree) (session : String) (path : WrittenPath) : Attempt :=
  .ofExcept tree <| (tree.directoryAt [] path.steps).map fun dir =>
    { tree with
      files := tree.files.filter (fun f => ¬ IsExpiredLog dir f) ++ [(dir ++ [session], 0)] }

/-- Starts logging: makes the log directory unless its path leads somewhere already, and opens a
session log there. Without file logging nothing happens. -/
def startLogging (config : LoggingSettings) (cache : Path) (session : String) (tree : FileTree) :
    Attempt :=
  if config.fileLogging then
    match config.directory cache with
    | .error e => ⟨tree, some e⟩
    | .ok path =>
      let made := if tree.isThere path then ⟨tree, none⟩ else tree.makeDirectories path
      made.andThen fun tree => tree.openSession session path
  else ⟨tree, none⟩

end PhelAssist
