import BlockScript.Json.Reader
import BlockScript.Schema.Field
import BlockScript.Script.Generation

/-!
# Settings

The settings of the service, from the environment on top of the defaults.  The name of a
variable is the name of the setting behind a common prefix, in any case.
-/

namespace BlockScript

open Schema

structure Settings where
  appName : String := "ScriptGraph API"
  appVersion : String := "0.1.0"
  debug : Bool := false
  apiPrefix : String := "/api"
  corsOrigins : List String := ["http://localhost:5173", "http://127.0.0.1:5173"]
  indentSize : Int := 4
  includeHeader : Bool := true
  bindingSuffixLength : Int := 4
  deriving DecidableEq, Repr

/-- The variables of an environment, in order. -/
abbrev Environment := List (String × String)

namespace Settings

/-- The settings given as members; unknown members are ignored. -/
def ofMembers (ms : Members) : Checked Settings :=
  let base : Settings := {}
  Settings.mk <$> optional "app_name" string base.appName ms
    <*> optional "app_version" string base.appVersion ms
    <*> optional "debug" bool base.debug ms
    <*> optional "api_prefix" string base.apiPrefix ms
    <*> optional "cors_origins" strings base.corsOrigins ms
    <*> optional "indent_size" (intBetween 1 8) base.indentSize ms
    <*> optional "include_header" bool base.includeHeader ms
    <*> optional "binding_suffix_length" (intBetween 1 32) base.bindingSuffixLength ms

/-- The settings that a variable gives as plain text. -/
def textNames : List String :=
  ["app_name", "app_version", "debug", "api_prefix", "indent_size", "include_header",
   "binding_suffix_length"]

/-- The value of a setting's variable; of several spellings the last one counts. -/
def given? (env : Environment) (name : String) : Option String :=
  let wanted := ("scriptgraph_" ++ name).toList
  (env.reverse.find? fun v => v.1.toList.map Char.toLower == wanted).map Prod.snd

/-- Why the environment gives no settings. -/
inductive Failure where
  /-- The list of origins is not JSON. -/
  | unreadableOrigins
  | faulty (faults : List Fault)

/-- The list of origins, given as JSON; null leaves the default. -/
def originMembers (env : Environment) : Except Failure Members :=
  match given? env "cors_origins" with
  | none => .ok []
  | some text => match Json.parse? .lenient text with
    | none => .error .unreadableOrigins
    | some .null => .ok []
    | some j => .ok [("cors_origins", j)]

/-- The settings of an environment. -/
def ofEnvironment (env : Environment) : Except Failure Settings := do
  let origins ← originMembers env
  let texts := textNames.filterMap fun name => (given? env name).map fun v => (name, Json.str v)
  match ofMembers (origins ++ texts) with
  | .ok settings => return settings
  | .faulty faults => throw (.faulty faults)

def generatorOptions (s : Settings) : GeneratorOptions :=
  { indentSize := s.indentSize, includeHeader := s.includeHeader,
    suffixLength := s.bindingSuffixLength }

def toJson (s : Settings) : Json :=
  .obj [("app_name", .str s.appName), ("app_version", .str s.appVersion), ("debug", .bool s.debug),
    ("api_prefix", .str s.apiPrefix), ("cors_origins", .ofStrings s.corsOrigins),
    ("indent_size", .ofInt s.indentSize), ("include_header", .bool s.includeHeader),
    ("binding_suffix_length", .ofInt s.bindingSuffixLength)]

end Settings

end BlockScript
