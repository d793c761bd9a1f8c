import BlockScript.Script.Emission

/-!
# Log records

What is logged while a script is made, and how logging is set up.  A finding is logged as a
warning whatever its own level; the progress of a generation is logged for debugging.
-/

namespace BlockScript

inductive LogLevel where
  | debug
  | info
  | warning
  | error
  deriving DecidableEq, Repr

namespace LogLevel

def name : LogLevel → String
  | .debug => "DEBUG"
  | .info => "INFO"
  | .warning => "WARNING"
  | .error => "ERROR"

def rank : LogLevel → Nat
  | .debug => 10
  | .info => 20
  | .warning => 30
  | .error => 40

/-- The least level that is written, with debugging on or off. -/
def threshold (debug : Bool) : LogLevel := if debug then .debug else .info

end LogLevel

structure LogRecord where
  level : LogLevel
  message : String
  deriving DecidableEq, Repr

/-- Whether a record reaches a log that is open from `least` on. -/
def LogRecord.reaches (least : LogLevel) (r : LogRecord) : Bool := least.rank ≤ r.level.rank

/-- The record of an event. -/
def Event.record : Event → LogRecord
  | .finding f => ⟨.warning, s!"{f.code.name}: {f.message}"⟩
  | .scope blocks level chains bindings =>
    ⟨.debug, s!"Emitting scope of {blocks} blocks at depth {level} " ++
      s!"({chains} chains, {bindings} bindings)"⟩
  | .script blocks bindings diagnostics =>
    ⟨.debug, s!"Generated script from {blocks} blocks: {bindings} bindings, " ++
      s!"{diagnostics} diagnostics"⟩

/-! ### Setting up -/

/-- Where log records go. -/
inductive LogHandler where
  /-- To standard error, each with its time, level and origin. -/
  | standardError
  /-- Nowhere. -/
  | discard
  deriving DecidableEq, Repr

/-- The layout of a line on standard error. -/
def LogHandler.format? : LogHandler → Option String
  | .standardError => some "%(asctime)s | %(levelname)s | %(name)s | %(message)s"
  | .discard => none

structure Logging where
  handlers : List LogHandler := []
  level : LogLevel := .warning
  deriving DecidableEq, Repr

/-- Opens the log.  Handlers that are there already stay; without any, records go to standard
error. -/
def Logging.configure (debug : Bool) (l : Logging) : Logging :=
  { handlers := if l.handlers.isEmpty then [.standardError] else l.handlers
    level := LogLevel.threshold debug }

end BlockScript
