import BlockScript.Command.Options
import BlockScript.Web.App

/-!
# The serve command

Reads how the web service is to be started.  A choice about debugging is written to the
environment first, and the service is set up from there.
-/

namespace BlockScript.Command

/-- The choices of a serve command. -/
structure ServeChoices where
  host : String := "127.0.0.1"
  /-- The number on the host that the service listens at. -/
  listenAt : Int := 8000
  logLevel : String := "info"
  reload : Bool := false
  accessLog : Bool := true
  debug : Option Bool := none
  deriving DecidableEq, Repr

namespace Serve

def usage : String :=
  "usage: scriptgraph-api [-h] [--host HOST] [--port PORT]\n" ++
  "                       [--log-level LOG_LEVEL] [--reload | --no-reload]\n" ++
  "                       [--access-log | --no-access-log] [--debug | --no-debug]\n"

def details : String :=
  "\nRun the ScriptGraph API\n" ++
  "\noptions:\n" ++
  "  -h, --help            show this help message and exit\n" ++
  "  --host HOST\n" ++
  "  --port PORT\n" ++
  "  --log-level LOG_LEVEL\n" ++
  "  --reload, --no-reload\n" ++
  "  --access-log, --no-access-log\n" ++
  "  --debug, --no-debug\n"

/-- A switch that is off under its `--no-` name. -/
def isOn (name : String) : Bool := !"--no-".toList.isPrefixOf name.toList

def setNumber (s : String) : Except String (ServeChoices → ServeChoices) :=
  match Text.option? s with
  | some number => .ok ({ · with listenAt := number })
  | none => .error ("invalid int value: " ++ Text.quote s)

def grammar : Grammar ServeChoices where
  program := "scriptgraph-api"
  usage := usage
  details := details
  options :=
    [⟨["-h", "--help"], .help⟩,
     ⟨["--host"], .value fun s => .ok ({ · with host := s })⟩,
     ⟨["--port"], .value setNumber⟩,
     ⟨["--log-level"], .value fun s => .ok ({ · with logLevel := s })⟩,
     ⟨["--reload", "--no-reload"], .flag fun name c => { c with reload := isOn name }⟩,
     ⟨["--access-log", "--no-access-log"], .flag fun name c => { c with accessLog := isOn name }⟩,
     ⟨["--debug", "--no-debug"], .flag fun name c => { c with debug := some (isOn name) }⟩]
  plain := none

def debugVariable : String := "SCRIPTGRAPH_DEBUG"

/-- Sets a variable; a new one goes to the end. -/
def setVariable (name value : String) : Environment → Environment
  | [] => [(name, value)]
  | (n, v) :: rest => if n == name then (name, value) :: rest else (n, v) :: setVariable name value rest

/-- The environment after the choice about debugging. -/
def environment (choices : ServeChoices) (env : Environment) : Environment :=
  match choices.debug with
  | none => env
  | some debug => setVariable debugVariable (if debug then "1" else "0") env

/-- How the start of the service ends. -/
inductive Start where
  | exit (code : Nat) (stdout stderr : String)
  | badSettings (failure : Settings.Failure)
  /-- The prefix of the routes is malformed. -/
  | badPrefix
  | ready (choices : ServeChoices) (env : Environment) (app : Web.App)

def start (args : List String) (env : Environment) : Start :=
  match grammar.parse {} args with
  | .exit code stdout stderr => .exit code stdout stderr
  | .ok choices =>
    let env := environment choices env
    match Settings.ofEnvironment env with
    | .error failure => .badSettings failure
    | .ok settings => match Web.App.create? settings with
      | none => .badPrefix
      | some app => .ready choices env app

end Serve

end BlockScript.Command
