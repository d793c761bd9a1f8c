import BlockScript.Command.FileTree
import BlockScript.Command.Options
import BlockScript.Json.Reader
import BlockScript.Service.Render
import BlockScript.Text.Utf8

/-!
# The generate command

Reads a graph file and writes its script to standard output or to a file.  The exit code is 2
when the file cannot be read or is no graph, and 1 when a strict run reports errors.
-/

namespace BlockScript.Command

/-- The choices of a generate command. -/
structure GenerateChoices where
  graph : Path := ⟨"", []⟩
  output : Option Path := none
  strict : Bool := false
  debug : Bool := false
  deriving DecidableEq, Repr

namespace Generate

def usage : String := "usage: scriptgraph-generate [-h] [-o OUTPUT] [--strict] [--debug] graph\n"

def details : String :=
  "\nGenerate a PowerShell script from a block graph\n" ++
  "\npositional arguments:\n" ++
  "  graph                 Graph snapshot JSON file.\n" ++
  "\noptions:\n" ++
  "  -h, --help            show this help message and exit\n" ++
  "  -o OUTPUT, --output OUTPUT\n" ++
  "                        Write the script here instead of stdout.\n" ++
  "  --strict              Fail when generation reports errors.\n" ++
  "  --debug\n"

def grammar : Grammar GenerateChoices where
  program := "scriptgraph-generate"
  usage := usage
  details := details
  options :=
    [⟨["-h", "--help"], .help⟩,
     ⟨["-o", "--output"], .value fun s => .ok ({ · with output := some (.ofString s) })⟩,
     ⟨["--strict"], .flag fun _ c => { c with strict := true }⟩,
     ⟨["--debug"], .flag fun _ c => { c with debug := true }⟩]
  plain := some ⟨"graph", fun s c => { c with graph := .ofString s }⟩

/-- Why a graph file cannot be read. -/
inductive ReadFailure where
  | file (error : FileError)
  /-- The bytes are no text. -/
  | notText
  deriving DecidableEq, Repr

def fileErrorName : FileError → String
  | .notFound => "FileNotFoundError"
  | .isDirectory => "IsADirectoryError"
  | .notDirectory => "NotADirectoryError"
  | .exists => "FileExistsError"
  | .nameTooLong => "OSError"
  | .denied => "PermissionError"

def ReadFailure.name : ReadFailure → String
  | .file error => fileErrorName error
  | .notText => "UnicodeDecodeError"

/-- What the command comes to before anything is written. -/
structure Answer where
  code : Nat
  script : Option String := none
  log : List LogRecord

/-- The text of a graph file. -/
def readText (contents : Except FileError (List UInt8)) : Except ReadFailure String :=
  match contents with
  | .error error => .error (.file error)
  | .ok bytes => match Text.decodeFile? bytes with
    | some text => .ok text
    | none => .error .notText

def readSnapshot? (text : String) : Option Snapshot :=
  (Json.parse? .strict text).bind fun j => (Snapshot.ofJson j).toOption

/-- The answer to a command whose graph file has these contents. -/
def answer (settings : Settings) (choices : GenerateChoices)
    (contents : Except FileError (List UInt8)) : Answer :=
  let path := choices.graph.toString
  match readText contents with
  | .error failure =>
    { code := 2
      log := [⟨.error, s!"Cannot read graph file '{path}': " ++ failure.name⟩] }
  | .ok text => match readSnapshot? text with
    | none =>
      { code := 2
        log := [⟨.error, s!"Invalid graph snapshot '{path}': " ++ "ValidationError"⟩] }
    | some graph =>
      let rendering := settings.render ⟨graph, choices.strict⟩
      match rendering.outcome with
      | .error messages =>
        { code := 1, log := rendering.log ++ messages.map fun m => ⟨.error, m⟩ }
      | .ok response => { code := 0, script := some response.script, log := rendering.log }

def wroteRecord (path : Path) : LogRecord := ⟨.info, "Wrote " ++ path.toString⟩

/-- How a run of the command ends. -/
inductive Result where
  | exit (code : Nat)
  | badSettings (failure : Settings.Failure)
  | unwritable (error : FileError)

/-- A run of the command in a file tree. -/
structure Run where
  result : Result
  stdout : String := ""
  stderr : String := ""
  log : List LogRecord := []
  tree : FileTree

/-- Delivers an answer: to standard output, or to a file. -/
def deliver (choices : GenerateChoices) (tree : FileTree) (a : Answer) : Run :=
  match a.script, choices.output with
  | none, _ => { result := .exit a.code, log := a.log, tree }
  | some script, none => { result := .exit a.code, stdout := script, log := a.log, tree }
  | some script, some path => match tree.write path (Text.encodeFile script) with
    | .error error => { result := .unwritable error, log := a.log, tree }
    | .ok written => { result := .exit a.code, log := a.log ++ [wroteRecord path], tree := written }

/-- Runs the command; only the records that the settings ask for are kept. -/
def run (args : List String) (env : Environment) (tree : FileTree) : Run :=
  match grammar.parse {} args with
  | .exit code stdout stderr => { result := .exit code, stdout, stderr, tree }
  | .ok choices => match Settings.ofEnvironment env with
    | .error failure => { result := .badSettings failure, tree }
    | .ok settings =>
      let least := LogLevel.threshold (choices.debug || settings.debug)
      let r := deliver choices tree (answer settings choices (tree.read choices.graph))
      { r with log := r.log.filter (·.reaches least) }

end Generate

end BlockScript.Command
