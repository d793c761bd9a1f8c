import BlockScript.Graph.Nesting
import BlockScript.Graph.Wiring

/-!
# Indexed graphs

The consistent part of a snapshot: its blocks, the connections that are followed, and the
place of each nested block.  Everything after this point reads the graph through it.
-/

namespace BlockScript

structure Index where
  blocks : List Block
  connections : List Connection
  parents : Parents
  deriving DecidableEq, Repr

def Snapshot.index (s : Snapshot) : Index :=
  { blocks := s.blocks, connections := s.wiring.accepted, parents := s.nesting.parents }

/-- What indexing a snapshot reports: first the connections, then the zones. -/
def Snapshot.findings (s : Snapshot) : List Finding := s.wiring.findings ++ s.nesting.findings

namespace Index

def block? (g : Index) (id : BlockId) : Option Block := g.blocks.find? (·.id == id)

def isCallable (g : Index) (id : BlockId) : Bool := (g.block? id).any Block.isCallable

def isControlFlow (g : Index) (id : BlockId) : Bool := (g.block? id).any Block.isControlFlow

def parent? (g : Index) (id : BlockId) : Option Place := g.parents.lookup id

/-- The containers around a block, innermost first. -/
def ancestors (g : Index) (id : BlockId) : List BlockId := g.parents.ancestors id

/-- The blocks that lie in no zone. -/
def topLevel (g : Index) : List BlockId :=
  (g.blocks.map Block.id).filter fun id => (g.parent? id).isNone

/-- The functions, wherever they lie. -/
def callables (g : Index) : List BlockId := (g.blocks.filter Block.isCallable).map Block.id

/-- The blocks that lie in a zone, in the order the zone lists them. -/
def zoneChildren (g : Index) (place : Place) : List BlockId :=
  match (g.block? place.container).bind (·.zone? place.zone) with
  | some zone => (zone.children.filter fun child => g.parent? child = some place).eraseDups
  | none => []

def incoming (g : Index) (id : BlockId) : List Connection :=
  g.connections.filter (·.target == id)

def outgoing (g : Index) (id : BlockId) : List Connection :=
  g.connections.filter (·.source == id)

end Index

end BlockScript
