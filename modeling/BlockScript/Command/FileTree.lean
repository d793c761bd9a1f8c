import BlockScript.Command.Path

/-!
# File trees

The files and directories below a working directory, as the commands see them: files are read
and written by path, and directories are made on the way to a file.  What lies outside the
working directory is not known: names there are not found, and a file written there leaves no
trace in the tree.
-/

namespace BlockScript.Command

/-- Why a file cannot be read or written. -/
inductive FileError where
  | notFound
  | isDirectory
  | notDirectory
  | exists
  | nameTooLong
  /-- The system refuses for a reason of its own. -/
  | denied
  deriving DecidableEq, Repr

/-- A place below the working directory, or above it. -/
inductive Location where
  | inside (segments : List String)
  | outside
  deriving DecidableEq, Repr

structure FileTree where
  files : List (List String × List UInt8) := []
  directories : List (List String) := []
  deriving DecidableEq, Repr

inductive Node where
  | file (bytes : List UInt8)
  | directory
  | missing
  deriving DecidableEq, Repr

namespace FileTree

variable (t : FileTree)

/-- What stands at a place.  Whatever has something below it is a directory. -/
def node : Location → Node
  | .outside => .directory
  | .inside segments => match t.files.lookup segments with
    | some bytes => .file bytes
    | none =>
      if segments.isEmpty || (t.directories ++ t.files.map Prod.fst).any segments.isPrefixOf then
        .directory
      else .missing

/-- One step down, or up with `..`, from a directory. -/
def step (here : Location) (segment : String) : Location :=
  match here, segment with
  | .inside [], ".." => .outside
  | .inside segments, ".." => .inside segments.dropLast
  | .inside segments, name => .inside (segments ++ [name])
  | .outside, _ => .outside

/-- The place that a path leads to from `here`; all but the last segment lead through
directories. -/
def walk (here : Location) : List String → Except FileError Location
  | [] => .ok here
  | segment :: rest =>
    if 255 < segment.utf8ByteSize then .error .nameTooLong
    else match t.node here with
      | .file _ => .error .notDirectory
      | .missing => .error .notFound
      | .directory =>
        if here == .outside && segment != ".." then .error .notFound
        else walk (step here segment) rest

/-- Where a path starts. -/
def start (p : Path) : Location := if p.root == "" then .inside [] else .outside

def read (p : Path) : Except FileError (List UInt8) := do
  match t.node (← t.walk (start p) p.segments) with
  | .file bytes => return bytes
  | .directory => throw .isDirectory
  | .missing => throw .notFound

/-- Makes the directories along a path that are not there yet. -/
def makeDirectories (here : Location) : FileTree → List String → Except FileError FileTree
  | t, [] => .ok t
  | t, segment :: rest =>
    if 255 < segment.utf8ByteSize then .error .nameTooLong
    else
      let next := step here segment
      match t.node next, next with
      | .directory, _ => makeDirectories next t rest
      | .file _, _ => .error (if rest.isEmpty then .exists else .notDirectory)
      | .missing, .inside segments =>
        makeDirectories next { t with directories := t.directories ++ [segments] } rest
      | .missing, .outside => .error .notFound

/-- Puts a file at a place. -/
def put (segments : List String) (bytes : List UInt8) : FileTree :=
  { t with files := t.files.filter (·.1 != segments) ++ [(segments, bytes)] }

/-- Whether a path names something outside the working directory, other than a directory
above it. -/
def namesOutside (p : Path) : Bool :=
  p.segments.foldl step (start p) == .outside && !p.segments.isEmpty &&
    p.segments.getLast? != some ".."

/-- Writes a file, making the directories around it. -/
def write (p : Path) (bytes : List UInt8) : Except FileError FileTree := do
  let t ← makeDirectories (start p) t p.parent.segments
  if namesOutside p then return t
  match ← t.walk (start p) p.segments with
  | .outside => throw .isDirectory
  | .inside segments => match t.node (.inside segments) with
    | .directory => throw .isDirectory
    | _ => return t.put segments bytes

/-- The files that are not as they were in `before`. -/
def changedSince (before : FileTree) : List (List String × List UInt8) :=
  t.files.filter fun (segments, bytes) => before.files.lookup segments != some bytes

end FileTree

end BlockScript.Command
