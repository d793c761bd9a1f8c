import BlockScript.Graph.Parameter
import BlockScript.Graph.Container

/-!
# Blocks

A block is a node of the graph: a command with parameters, a piece of script, or a
container.  A function is called by name where it stands; the other containers steer the
control flow.
-/

namespace BlockScript

structure Block where
  id : BlockId
  title : String := "New Block"
  category : String := "Custom"
  command : String := ""
  scriptBody : String := ""
  outputVariable : String := ""
  parameters : List Parameter := []
  inputs : List String := ["In"]
  outputs : List String := ["Out"]
  container : Option Container := none
  deriving DecidableEq, Repr

namespace Block

def isContainer (b : Block) : Bool := b.container.isSome

/-- The name under which a function block is called. -/
def functionName? (b : Block) : Option String :=
  match b.container with
  | some (.function name _ _) => some (Container.resolveFunctionName name)
  | _ => none

def isCallable (b : Block) : Bool := b.functionName?.isSome

def isControlFlow (b : Block) : Bool := b.isContainer && !b.isCallable

def zones (b : Block) : List Zone :=
  match b.container with
  | some c => c.zones
  | none => []

def zone? (b : Block) (label : ZoneLabel) : Option Zone := b.zones.find? (·.label == label)

/-- The stage that the block gives to a pipeline; empty when it has nothing to run. -/
def expression (b : Block) : String :=
  match b.functionName? with
  | some name => name
  | none =>
    if Text.isBlankText b.command then Text.trim b.scriptBody
    else " ".intercalate (Text.trim b.command :: b.parameters.filterMap Parameter.argument?)

end Block

end BlockScript
