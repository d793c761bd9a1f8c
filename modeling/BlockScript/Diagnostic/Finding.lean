import BlockScript.Diagnostic.Basic
import BlockScript.Graph.Snapshot

/-!
# Findings

The causes of diagnostics, each with the parts of the graph it is about.  `Finding.diagnostic`
puts a finding into words.
-/

namespace BlockScript

inductive Finding where
  | danglingConnection (c : Connection)
  | selfConnection (c : Connection)
  | unknownSocket (c : Connection)
  | duplicateConnection (c : Connection)
  | inputTaken (c : Connection)
  /-- A zone lists a block that does not exist. -/
  | danglingChild (place : Place) (child : BlockId)
  /-- A container lists itself. -/
  | selfNesting (container : BlockId)
  /-- A block that belongs to `owner` is listed in `other` too. -/
  | adoptedChild (child : BlockId) (owner other : Place)
  /-- A block that lies inside itself through other containers. -/
  | ownAncestor (block : BlockId)
  | graphCycle (ids : List BlockId)
  | zoneCycle (place : Place) (ids : List BlockId)
  | unseenProducer (block producer : BlockId)
  | severalProducers (block : BlockId) (producers : List BlockId)
  deriving DecidableEq, Repr

/-- The sentence about a cycle, given the ids along it. -/
def cycleMessage (ids : List BlockId) : String :=
  "Cycle detected between blocks: " ++ " -> ".intercalate ids

namespace Finding

def level : Finding → Diagnostic.Level
  | .graphCycle _ => .error
  | .zoneCycle .. => .error
  | _ => .warning

def code : Finding → Diagnostic.Code
  | .danglingConnection _ => .danglingConnection
  | .selfConnection _ => .selfConnection
  | .unknownSocket _ => .unknownSocket
  | .duplicateConnection _ => .duplicateConnection
  | .inputTaken _ => .inputAlreadyConnected
  | .danglingChild .. => .danglingZoneChild
  | .selfNesting _ => .nestingCycle
  | .adoptedChild .. => .duplicateZoneChild
  | .ownAncestor _ => .nestingCycle
  | .graphCycle _ => .cycle
  | .zoneCycle .. => .cycle
  | .unseenProducer .. => .unseenProducer
  | .severalProducers .. => .severalProducers

def message : Finding → String
  | .danglingConnection c => s!"Skipping connection {c.label}: block not found in graph."
  | .selfConnection c => s!"Skipping connection {c.label}: a block cannot feed itself."
  | .unknownSocket c => s!"Skipping connection {c.label}: port not found on block."
  | .duplicateConnection c => s!"Skipping duplicate connection {c.label}."
  | .inputTaken c =>
    s!"Skipping connection {c.label}: input port already has an upstream connection."
  | .danglingChild place child =>
    s!"Skipping child '{child}' of zone '{place.zone.name}' on '{place.container}': " ++
      "block not found in graph."
  | .selfNesting container => s!"Block '{container}' cannot be nested inside itself."
  | .adoptedChild child owner other =>
    s!"Block '{child}' already belongs to zone '{owner.zone.name}' of '{owner.container}'; " ++
      s!"ignoring membership in zone '{other.zone.name}' of '{other.container}'."
  | .ownAncestor block => s!"Block '{block}' is its own ancestor; treating it as top-level."
  | .graphCycle ids => cycleMessage ids
  | .zoneCycle place ids =>
    s!"Zone '{place.zone.name}' of '{place.container}' was not emitted: " ++ cycleMessage ids
  | .unseenProducer block producer =>
    s!"Block '{block}' reads from '{producer}', which is not visible from its scope; " ++
      "using the scope input instead."
  | .severalProducers block producers =>
    s!"Block '{block}' has {producers.length} upstream producers; " ++
      "emitting it without piped input."

def blockIds : Finding → List BlockId
  | .danglingConnection c => [c.source, c.target]
  | .selfConnection c => [c.source]
  | .unknownSocket c => [c.source, c.target]
  | .duplicateConnection c => [c.source, c.target]
  | .inputTaken c => [c.source, c.target]
  | .danglingChild place _ => [place.container]
  | .selfNesting container => [container]
  | .adoptedChild child _ _ => [child]
  | .ownAncestor block => [block]
  | .graphCycle ids => ids
  | .zoneCycle _ ids => ids
  | .unseenProducer block producer => [block, producer]
  | .severalProducers block producers => block :: producers

def diagnostic (f : Finding) : Diagnostic := ⟨f.level, f.code, f.message, f.blockIds⟩

end Finding

end BlockScript
