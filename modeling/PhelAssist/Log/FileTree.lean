namespace PhelAssist

/-- A file or directory by the names that lead to it from some base directory. Directories around
the base are `..` repeated. -/
abbrev Path := List String

namespace Path

/-- The base directory and the ones around it. -/
def IsAround (path : Path) : Prop := ∀ part ∈ path, part = ".."

instance (path : Path) : Decidable path.IsAround :=
  inferInstanceAs (Decidable (∀ part ∈ path, part = ".."))

/-- The directory around a directory. -/
def outer (path : Path) : Path := if path.IsAround then path ++ [".."] else path.dropLast

end Path

/-- Why a directory cannot be made or opened. -/
inductive FileError where
  | notADirectory
  | notFound
  | alreadyExists
  | nulInPath
  | tooLong
  deriving DecidableEq, Repr

/-- A step of a written path: into what a directory holds, or out to the directory around it. -/
inductive PathStep where
  | down (name : String)
  | up
  deriving DecidableEq, Repr

namespace PathStep

/-- The step that a part of a written path stands for. A dot leads nowhere. -/
def ofPart? (part : String) : Option PathStep :=
  if part = "" ∨ part = "." then none
  else if part = ".." then some up
  else some (down part)

def follow (here : Path) : PathStep → Path
  | down name => here ++ [name]
  | up => here.outer

/-- File systems take names of up to 255 bytes. -/
def IsTooLong : PathStep → Prop
  | down name => 255 < name.utf8ByteSize
  | up => False

instance (step : PathStep) : Decidable step.IsTooLong := by
  cases step <;> unfold IsTooLong <;> infer_instance

end PathStep

/-- How a written path ends. A slash or a dot at the end asks for a directory; the dot is looked up
in it, so it has to be there already. -/
inductive PathEnding where
  | plain
  | slash
  | dot
  deriving DecidableEq, Repr

/-- A path as it is written, which may go through directories that are not there. -/
structure WrittenPath where
  steps : List PathStep
  ending : PathEnding
  deriving DecidableEq, Repr

namespace WrittenPath

/-- The path that a text spells. Doubled slashes and dots matter at the end only. -/
def spelled (text : String) : WrittenPath :=
  let parts := text.splitOn "/"
  { steps := parts.filterMap PathStep.ofPart?
    ending :=
      if (parts.filter (· ≠ "")).getLast? = some "." then .dot
      else if parts.getLast? = some "" then .slash
      else .plain }

/-- Reads a path. Systems end a path with a NUL, which therefore cannot stand in one, and take no
more than 4096 bytes with it. -/
def ofText (text : String) : Except FileError WrittenPath :=
  if '\x00' ∈ text.toList then .error .nulInPath
  else if 4096 ≤ text.utf8ByteSize then .error .tooLong
  else .ok (spelled text)

def ofPath (path : Path) : WrittenPath := ⟨path.map .down, .plain⟩

/-- The path without its last step, and without what follows that step. -/
def parent (p : WrittenPath) : WrittenPath := ⟨p.steps.dropLast, .plain⟩

/-- The steps to the directory in which a path ends, and the name that it ends with there. A dot and
a step out are no names. -/
def lastName? (p : WrittenPath) : List PathStep × Option String :=
  if p.ending = .dot then (p.steps, none)
  else
    match p.steps.getLast? with
    | some (.down name) => (p.steps.dropLast, some name)
    | _ => (p.steps.dropLast, none)

end WrittenPath

/-- What lies below a directory. Files have an age in seconds, which is negative for a date in the
future. -/
structure FileTree where
  directories : List Path
  files : List (Path × Int)
  deriving DecidableEq, Repr

namespace FileTree

def empty : FileTree := ⟨[], []⟩

variable (tree : FileTree)

def IsFile (path : Path) : Prop := ∃ f ∈ tree.files, f.1 = path

instance (path : Path) : Decidable (tree.IsFile path) :=
  inferInstanceAs (Decidable (∃ f ∈ tree.files, f.1 = path))

/-- The base directory and what is around it are always there. -/
def IsDirectory (path : Path) : Prop := path.IsAround ∨ path ∈ tree.directories

instance (path : Path) : Decidable (tree.IsDirectory path) :=
  inferInstanceAs (Decidable (_ ∨ _))

/-- Adds a directory that may be there already. -/
def addDirectory (path : Path) : FileTree :=
  if tree.IsDirectory path then tree
  else { tree with directories := tree.directories ++ [path] }

/-- Every path below the base directory, directories with a slash at the end, in the order of their
characters. -/
def listing : List String :=
  let isBelow (path : Path) : Bool := path.head? ≠ some ".."
  (((tree.directories.filter isBelow).map fun d => "/".intercalate d ++ "/") ++
    ((tree.files.map (·.1)).filter isBelow).map "/".intercalate).mergeSort

/-- The directory to which steps lead from the directory `here`. The first step that leads to none
decides the error. -/
def directoryAt (here : Path) : List PathStep → Except FileError Path
  | [] => .ok here
  | step :: rest =>
    let next := step.follow here
    if step.IsTooLong then .error .tooLong
    else if tree.IsFile next then .error .notADirectory
    else if tree.IsDirectory next then directoryAt next rest
    else .error .notFound

/-- Whether a path leads to a file or directory that is there. -/
def isThere (path : WrittenPath) : Bool :=
  (tree.directoryAt [] path.steps).isOk ||
    path.ending = .plain &&
      match path.lastName? with
      | (outer, some name) =>
        (tree.directoryAt [] outer).toOption.any fun here => tree.IsFile (here ++ [name])
      | (_, none) => false

/-- Makes a directory in one that is there, under a name that is not taken. -/
def makeDirectory (path : WrittenPath) : Except FileError FileTree := do
  let (outer, name?) := path.lastName?
  let here ← tree.directoryAt [] outer
  match name? with
  | none => .error .alreadyExists
  | some name =>
    if (PathStep.down name).IsTooLong then .error .tooLong
    else if tree.IsFile (here ++ [name]) ∨ tree.IsDirectory (here ++ [name]) then
      .error .alreadyExists
    else .ok (tree.addDirectory (here ++ [name]))

/-- Makes a directory, or is content with the one that is there. -/
def provideDirectory (path : WrittenPath) : Except FileError FileTree :=
  match tree.makeDirectory path with
  | .ok tree => .ok tree
  | .error e => if (tree.directoryAt [] path.steps).isOk then .ok tree else .error e

end FileTree

/-- How an attempt ended, and what lies in the tree then. What was made before an error stays. -/
structure Attempt where
  tree : FileTree
  error : Option FileError
  deriving DecidableEq, Repr

namespace Attempt

def ofExcept (before : FileTree) : Except FileError FileTree → Attempt
  | .ok tree => ⟨tree, none⟩
  | .error e => ⟨before, some e⟩

/-- Goes on from what an attempt left, unless it failed. -/
def andThen (a : Attempt) (next : FileTree → Attempt) : Attempt :=
  match a.error with
  | none => next a.tree
  | some _ => a

end Attempt

/-- Makes a directory. Where something on the way to it is missing, what lies above is made first,
as far up as needed; a file in the way is an error. -/
def FileTree.makeDirectories (tree : FileTree) (path : WrittenPath) : Attempt :=
  match tree.provideDirectory path with
  | .error .notFound =>
    if _h : path.steps = [] then ⟨tree, some .notFound⟩
    else
      (tree.makeDirectories path.parent).andThen fun tree =>
        .ofExcept tree (tree.provideDirectory path)
  | provided => .ofExcept tree provided
termination_by path.steps.length
decreasing_by
  have := List.length_pos_iff.2 _h
  simp only [WrittenPath.parent, List.length_dropLast]
  omega

namespace FileTree

/-- Puts a directory, and those on the way to it, into the tree as far as that can be done. -/
def withDirectory (tree : FileTree) (path : WrittenPath) : FileTree :=
  (tree.makeDirectories path).tree

/-- Puts a file, and the directories on the way to it, into the tree as far as that can be done. A
file that is there already gets the new age. -/
def withFile (tree : FileTree) (path : WrittenPath) (age : Int) : FileTree :=
  let tree := tree.withDirectory path.parent
  match path.lastName? with
  | (_, none) => tree
  | (outer, some name) =>
    match tree.directoryAt [] outer with
    | .error _ => tree
    | .ok here =>
      if (PathStep.down name).IsTooLong ∨ tree.IsDirectory (here ++ [name]) then tree
      else
        { tree with
          files := (tree.files.filter fun f => f.1 ≠ here ++ [name]) ++ [(here ++ [name], age)] }

end FileTree

end PhelAssist
