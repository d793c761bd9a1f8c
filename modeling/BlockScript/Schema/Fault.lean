import BlockScript.Json.Basic

/-!
# Faults

What can be wrong with a document, where, and in which words it is reported.  The cause and
the place of a fault do not depend on how the document arrived; a few of the words do, and
that is what `Origin` is for.  A fault also holds the value it was found in, which is the whole
record when a member is missing.
-/

namespace BlockScript.Schema

/-- How a document arrived. -/
inductive Origin where
  /-- As a value of the program. -/
  | value
  /-- As the text of a file. -/
  | text
  /-- As the body of a request. -/
  | request
  deriving DecidableEq

/-- The records a document is made of. -/
inductive Record where
  | parameter
  | block
  | connection
  | snapshot
  | request
  deriving DecidableEq

def Record.name : Record → String
  | .parameter => "BlockParameter"
  | .block => "Block"
  | .connection => "Connection"
  | .snapshot => "GraphSnapshot"
  | .request => "GenerateScriptRequest"

inductive Cause where
  | missing
  | notString
  /-- The string is no well-formed text. -/
  | brokenString
  | emptyString
  | notList
  /-- A string or number that names no truth value. -/
  | unreadableBool
  | notBool
  | unknownParameterType
  | notRecord (record : Record)
  | notContainer
  /-- A container without a kind. -/
  | untagged
  | unknownKind (tag : String)
  | tooManyBlocks
  | tooManyConnections
  | repeatedIds
  | unreadableInt
  /-- An integer that is too large to be read. -/
  | oversizedInt
  | fractionalInt
  | notFinite
  | notInt
  | below (least : Int)
  | above (most : Int)
  deriving DecidableEq

/-- A step from a value into one of its parts. -/
inductive Step where
  | key (name : String)
  | index (i : Nat)
  deriving DecidableEq

structure Fault where
  path : List Step
  cause : Cause
  /-- The value that is at fault. -/
  value : Json

namespace Cause

/-- The machine-readable word for a cause. -/
def code (origin : Origin) : Cause → String
  | .missing => "missing"
  | .notString => "string_type"
  | .brokenString => "string_unicode"
  | .emptyString => "string_too_short"
  | .notList => "list_type"
  | .unreadableBool => "bool_parsing"
  | .notBool => "bool_type"
  | .unknownParameterType => "enum"
  | .notRecord _ => match origin with
    | .request => "model_attributes_type"
    | _ => "model_type"
  | .notContainer => match origin with
    | .text => "dict_type"
    | _ => "model_attributes_type"
  | .untagged => "union_tag_not_found"
  | .unknownKind _ => "union_tag_invalid"
  | .tooManyBlocks => "value_error"
  | .tooManyConnections => "value_error"
  | .repeatedIds => "value_error"
  | .unreadableInt => "int_parsing"
  | .oversizedInt => "int_parsing_size"
  | .fractionalInt => "int_from_float"
  | .notFinite => "finite_number"
  | .notInt => "int_type"
  | .below _ => "greater_than_equal"
  | .above _ => "less_than_equal"

def attributesExpected : String :=
  "Input should be a valid dictionary or object to extract fields from"

def objectExpected : String := "Input should be an object"

/-- The sentence for a cause. -/
def message (origin : Origin) : Cause → String
  | .missing => "Field required"
  | .notString => "Input should be a valid string"
  | .brokenString => "Input should be a valid string, unable to parse raw data as a unicode string"
  | .emptyString => "String should have at least 1 character"
  | .notList => match origin with
    | .text => "Input should be a valid array"
    | _ => "Input should be a valid list"
  | .unreadableBool => "Input should be a valid boolean, unable to interpret input"
  | .notBool => "Input should be a valid boolean"
  | .unknownParameterType =>
    "Input should be 'string', 'int', 'bool', 'string_array', 'script_block', 'path', " ++
      "'credential' or 'enum'"
  | .notRecord record => match origin with
    | .value => "Input should be a valid dictionary or instance of " ++ record.name
    | .text => objectExpected
    | .request => attributesExpected
  | .notContainer => match origin with
    | .text => objectExpected
    | _ => attributesExpected
  | .untagged => "Unable to extract tag using discriminator 'kind'"
  | .unknownKind tag =>
    "Input tag '" ++ tag ++ "' found using 'kind' does not match any of the expected tags: " ++
      "'if_else', 'for_each', 'while', 'try_catch', 'function'"
  | .tooManyBlocks => "Value error, Graph exceeds maximum block count (500)"
  | .tooManyConnections => "Value error, Graph exceeds maximum connection count (2000)"
  | .repeatedIds => "Value error, Block IDs must be unique"
  | .unreadableInt => "Input should be a valid integer, unable to parse string as an integer"
  | .oversizedInt => "Unable to parse input string as an integer, exceeded maximum size"
  | .fractionalInt => "Input should be a valid integer, got a number with a fractional part"
  | .notFinite => "Input should be a finite number"
  | .notInt => "Input should be a valid integer"
  | .below least => "Input should be greater than or equal to " ++ toString least
  | .above most => "Input should be less than or equal to " ++ toString most

end Cause

/-! ### Checked values -/

/-- A value, or all the faults that stood in its way. -/
inductive Checked (α : Type) where
  | ok (value : α)
  | faulty (faults : List Fault)

namespace Checked

variable {α β : Type}

def map (f : α → β) : Checked α → Checked β
  | .ok a => .ok (f a)
  | .faulty faults => .faulty faults

/-- Applies a checked function; the faults of both sides are kept, in order. -/
def apply : Checked (α → β) → Checked α → Checked β
  | .ok f, .ok a => .ok (f a)
  | .ok _, .faulty faults => .faulty faults
  | .faulty faults, .ok _ => .faulty faults
  | .faulty faults, .faulty more => .faulty (faults ++ more)

instance : Applicative Checked where
  pure := .ok
  map := map
  seq f a := apply f (a ())

/-- A single fault at the value itself. -/
def fail (cause : Cause) (value : Json) : Checked α := .faulty [⟨[], cause, value⟩]

/-- A check that is made only of a value without faults. -/
def andThen (f : α → Checked β) : Checked α → Checked β
  | .ok a => f a
  | .faulty faults => .faulty faults

/-- Places the faults one step further in. -/
def within (step : Step) : Checked α → Checked α
  | .ok a => .ok a
  | .faulty faults => .faulty (faults.map fun f => { f with path := step :: f.path })

/-- The value, if there are no faults. -/
def toOption : Checked α → Option α
  | .ok a => some a
  | .faulty _ => none

@[simp] theorem map_ok (f : α → β) (a : α) : f <$> (ok a : Checked α) = ok (f a) := rfl

@[simp] theorem seq_ok (f : α → β) (a : α) : (ok f : Checked (α → β)) <*> ok a = ok (f a) := rfl

@[simp] theorem within_ok (step : Step) (a : α) : (ok a).within step = ok a := rfl

@[simp] theorem andThen_ok (f : α → Checked β) (a : α) : (ok a).andThen f = f a := rfl

end Checked

end BlockScript.Schema
