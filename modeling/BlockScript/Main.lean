import BlockScript.Command.Generate

/-!
# The command line

The generate command on real files: this module reads the environment and the graph file,
and writes the script and the log; what to read and write is decided elsewhere.
-/

namespace BlockScript.Main

open Command

/-- The variables that settings are read from. -/
def variableNames : List String :=
  ["SCRIPTGRAPH_APP_NAME", "SCRIPTGRAPH_APP_VERSION", "SCRIPTGRAPH_DEBUG",
   "SCRIPTGRAPH_API_PREFIX", "SCRIPTGRAPH_CORS_ORIGINS", "SCRIPTGRAPH_INDENT_SIZE",
   "SCRIPTGRAPH_INCLUDE_HEADER", "SCRIPTGRAPH_BINDING_SUFFIX_LENGTH"]

def readEnvironment : IO Environment :=
  variableNames.filterMapM fun name => do return (← IO.getEnv name).map fun value => (name, value)

/-- The cause behind a failure of the system. -/
def fileError : IO.Error → FileError
  | .noFileOrDirectory .. => .notFound
  | .inappropriateType _ code _ => if code == 21 then .isDirectory else .notDirectory
  | .alreadyExists .. => .exists
  | .invalidArgument .. => .nameTooLong
  | _ => .denied

def readFile (path : Path) : IO (Except FileError (List UInt8)) := do
  try return .ok (← IO.FS.readBinFile path.toString).toList
  catch e => return .error (fileError e)

def writeFile (path : Path) (bytes : List UInt8) : IO Unit := do
  IO.FS.createDirAll path.parent.toString
  IO.FS.writeBinFile path.toString (ByteArray.mk bytes.toArray)

def writeLog (least : LogLevel) (records : List LogRecord) : IO Unit :=
  (records.filter (·.reaches least)).forM fun r => IO.eprintln s!"{r.level.name} | {r.message}"

def describe : Settings.Failure → String
  | .unreadableOrigins => "the list of origins is not JSON"
  | .faulty faults => "\n".intercalate (faults.map fun f => f.cause.message .value)

def generate (choices : GenerateChoices) (settings : Settings) : IO UInt32 := do
  let least := LogLevel.threshold (choices.debug || settings.debug)
  let a := Generate.answer settings choices (← readFile choices.graph)
  writeLog least a.log
  match a.script, choices.output with
  | none, _ => pure ()
  | some script, none => (← IO.getStdout).putStr script
  | some script, some path =>
    writeFile path (Text.encodeFile script)
    writeLog least [Generate.wroteRecord path]
  return a.code.toUInt32

end BlockScript.Main

open BlockScript Command in
def main (args : List String) : IO UInt32 := do
  match Generate.grammar.parse {} args with
  | .exit code stdout stderr =>
    (← IO.getStdout).putStr stdout
    (← IO.getStderr).putStr stderr
    return code.toUInt32
  | .ok choices => match Settings.ofEnvironment (← Main.readEnvironment) with
    | .ok settings => Main.generate choices settings
    | .error failure =>
      IO.eprintln (Main.describe failure)
      return 1
