import BlockScript.Graph.Block
import BlockScript.Text.Lines

/-!
# Script entries

A script is written as a list of entries, each at its nesting level.  An entry still knows
which blocks it is about, what name its result goes to and what is piped into it;
`Entry.lines` is its text.  Only the text depends on the width of the indentation.
-/

namespace BlockScript

/-- What is piped into a statement. -/
inductive Source where
  /-- The variable that holds the result of `producer`. -/
  | variable (producer : BlockId) (name : String)
  /-- The item of a for-each loop. -/
  | item
  /-- The parameter of a function. -/
  | parameter (name : String)
  /-- A reference given from outside. -/
  | given (text : String)
  deriving DecidableEq, Repr

def Source.text : Source → String
  | .variable _ name => "$" ++ name
  | .item => "$_"
  | .parameter name => "$" ++ name
  | .given text => text

/-- The reference to write for a source; an empty one counts as none. -/
def Source.reference? (source : Option Source) : Option String :=
  (source.map Source.text).filter (· ≠ "")

/-- What an opening brace is for. -/
inductive Opening where
  | ifBranch (condition : String)
  | elseBranch
  | forEach
  | whileLoop (condition : String)
  | tryBranch
  | catchBranch
  | function (name : String)
  | process
  deriving DecidableEq, Repr

/-- The text before and with an opening brace; only a loop over items names what is piped in. -/
def Opening.text (source : Option Source) : Opening → String
  | .ifBranch condition => "if (" ++ condition ++ ") \x7b"
  | .elseBranch => "else \x7b"
  | .forEach => match Source.reference? source with
    | some reference => reference ++ " | ForEach-Object \x7b"
    | none => "ForEach-Object \x7b"
  | .whileLoop condition => "while (" ++ condition ++ ") \x7b"
  | .tryBranch => "try \x7b"
  | .catchBranch => "catch \x7b"
  | .function name => "function " ++ name ++ " \x7b"
  | .process => "process \x7b"

inductive Entry where
  /-- The stages of a chain as one pipeline, its result captured by `target`. -/
  | pipeline (level : Int) (target : Option String) (source : Option Source) (stages : List Block)
  /-- The start of a container's zone.  `source` is what is piped into the container; it stands at
  the first of its zones, as `target` does. -/
  | opening (level : Int) (owner : BlockId) (target : Option String) (source : Option Source)
      (what : Opening)
  | closing (level : Int) (owner : BlockId)
  /-- The declaration of a function's one parameter. -/
  | parameters (level : Int) (name : String)
  | emptyZone (level : Int) (place : Place)
  /-- A zone that is not written because its blocks depend on each other in a cycle. -/
  | brokenZone (level : Int) (place : Place)
  | comment (text : String)
  | blank
  deriving DecidableEq, Repr

namespace Entry

/-- The left side of the assignment that captures a result. -/
def assignment : Option String → String
  | some name => "$" ++ name ++ " = "
  | none => ""

/-- The parts of a pipeline: what is piped in, then the stages that have something to run. -/
def segments (source : Option Source) (stages : List Block) : List String :=
  (Source.reference? source).toList ++ (stages.map Block.expression).filter (· ≠ "")

def pipelineText (source : Option Source) (stages : List Block) : String :=
  match segments source stages with
  | [] => "$null"
  | parts => " | ".intercalate parts

/-- The pad of a nesting level. -/
def pad (size level : Int) : String := Text.spaces (level * size)

/-- The lines of an entry.  A pipeline may run over several lines, each of them indented; any
other text is one line, whatever it holds. -/
def lines (size : Int) : Entry → List String
  | .pipeline level target source stages =>
    Text.indent (pad size level) (assignment target ++ pipelineText source stages)
  | .opening level _ target source what =>
    [pad size level ++ assignment target ++ what.text source]
  | .closing level _ => [pad size level ++ "\x7d"]
  | .parameters level name =>
    [pad size level ++ "param(",
      pad size (level + 1) ++ "[Parameter(ValueFromPipeline)]",
      pad size (level + 1) ++ "$" ++ name,
      pad size level ++ ")"]
  | .emptyZone level _ => [pad size level ++ "# (empty)"]
  | .brokenZone level place =>
    [pad size level ++ "# ERROR: Cycle detected in zone '" ++ place.zone.name ++ "'!"]
  | .comment text => [text]
  | .blank => [""]

end Entry

end BlockScript
