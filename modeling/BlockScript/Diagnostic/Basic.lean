/-!
# Diagnostics

What a generation reports besides the script: warnings about references that were dropped or
could not be followed, and errors about parts that were not written.
-/

namespace BlockScript

inductive Diagnostic.Level where
  | warning
  | error
  deriving DecidableEq, Repr

inductive Diagnostic.Code where
  | cycle
  | danglingConnection
  | unknownSocket
  | selfConnection
  | duplicateConnection
  | inputAlreadyConnected
  | danglingZoneChild
  | duplicateZoneChild
  | nestingCycle
  | severalProducers
  | unseenProducer
  deriving DecidableEq, Repr

structure Diagnostic where
  level : Diagnostic.Level
  code : Diagnostic.Code
  message : String
  blockIds : List String
  deriving DecidableEq, Repr

namespace Diagnostic

def Level.name : Level → String
  | .warning => "warning"
  | .error => "error"

namespace Code

def all : List Code :=
  [.cycle, .danglingConnection, .unknownSocket, .selfConnection, .duplicateConnection,
   .inputAlreadyConnected, .danglingZoneChild, .duplicateZoneChild, .nestingCycle,
   .severalProducers, .unseenProducer]

def name : Code → String
  | .cycle => "cycle"
  | .danglingConnection => "dangling_connection"
  | .unknownSocket => "unknown_port"
  | .selfConnection => "self_connection"
  | .duplicateConnection => "duplicate_connection"
  | .inputAlreadyConnected => "input_already_connected"
  | .danglingZoneChild => "dangling_zone_child"
  | .duplicateZoneChild => "duplicate_zone_child"
  | .nestingCycle => "nesting_cycle"
  | .severalProducers => "ambiguous_upstream"
  | .unseenProducer => "unresolved_upstream"

def ofName? (word : String) : Option Code := all.find? (·.name == word)

theorem ofName?_name (code : Code) : ofName? code.name = some code := by cases code <;> rfl

end Code

def isError (d : Diagnostic) : Bool := d.level == .error

/-- Whether a report holds an error. -/
def hasErrors (report : List Diagnostic) : Bool := report.any isError

end Diagnostic

end BlockScript
