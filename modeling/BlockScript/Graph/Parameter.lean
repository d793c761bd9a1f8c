import BlockScript.Text.Blank

/-!
# Parameters

A parameter of a command block, and the argument it becomes on the command line.  The
argument is absent when neither value nor default says anything, and for a switch that is
not turned on.
-/

namespace BlockScript

/-- What kind of value a parameter holds. -/
inductive ParameterType where
  | string
  | int
  | bool
  | stringArray
  | scriptBlock
  | path
  | credential
  | choice
  deriving DecidableEq, Repr

namespace ParameterType

def all : List ParameterType :=
  [.string, .int, .bool, .stringArray, .scriptBlock, .path, .credential, .choice]

/-- The word a document uses for the type. -/
def name : ParameterType → String
  | .string => "string"
  | .int => "int"
  | .bool => "bool"
  | .stringArray => "string_array"
  | .scriptBlock => "script_block"
  | .path => "path"
  | .credential => "credential"
  | .choice => "enum"

def ofName? (word : String) : Option ParameterType := all.find? (·.name == word)

theorem ofName?_name (t : ParameterType) : ofName? t.name = some t := by cases t <;> rfl

end ParameterType

structure Parameter where
  name : String
  type : ParameterType := .string
  value : String := ""
  defaultValue : String := ""
  description : String := ""
  isMandatory : Bool := false
  validValues : List String := []
  deriving DecidableEq, Repr

namespace Parameter

/-- The value if it says something, else the default, trimmed. -/
def effectiveValue (p : Parameter) : String :=
  Text.trim (if Text.isBlankText p.value then p.defaultValue else p.value)

/-- A backtick in front of every double quote. -/
def escapeQuotes (s : String) : String :=
  String.ofList (s.toList.flatMap fun c => if c = '"' then ['\x60', '"'] else [c])

/-- A text between double quotes, as it stands. -/
def quoted (s : String) : String := "\"" ++ s ++ "\""

/-- The trimmed items of a comma-separated value. -/
def items (value : String) : List String :=
  (value.toList.splitOn ',').map fun item => String.ofList (Text.trimChars item)

/-- Whether a switch is turned on. -/
def isOn (value : String) : Bool := value.toList.map Char.toLower == "true".toList

/-- The argument that gives `value` to the parameter. -/
def argumentFor (p : Parameter) (value : String) : Option String :=
  let flag := "-" ++ p.name
  match p.type with
  | .string => some (flag ++ " " ++ quoted (escapeQuotes value))
  | .path => some (flag ++ " " ++ quoted (escapeQuotes value))
  | .int => some (flag ++ " " ++ value)
  | .bool => if isOn value then some flag else none
  | .stringArray => some (flag ++ " @(" ++ ", ".intercalate ((items value).map quoted) ++ ")")
  | .scriptBlock => some (flag ++ " \x7b " ++ value ++ " \x7d")
  | .credential => some (flag ++ " " ++ quoted value)
  | .choice => some (flag ++ " " ++ quoted value)

/-- The command-line argument of the parameter, if it has one. -/
def argument? (p : Parameter) : Option String :=
  if p.effectiveValue = "" then none else p.argumentFor p.effectiveValue

end Parameter

end BlockScript
