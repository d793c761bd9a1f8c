import BlockScript.Graph.Index

/-!
# Scopes

A scope is a list of blocks that are written one after the other: the top level of the graph,
or one zone.  The queries here look at the graph from inside a scope.

* `Scope.dependencies`: what has to be written before a block.
* `Scope.nestedConsumers`: who reads a block from a zone further in.
-/

namespace BlockScript

structure Scope where
  index : Index
  ids : List BlockId

namespace Scope

variable (s : Scope)

def contains (id : BlockId) : Bool := s.ids.contains id

/-- Connections into a block from inside the scope. -/
def incoming (id : BlockId) : List Connection := (s.index.incoming id).filter (s.contains ·.source)

/-- Connections out of a block that stay inside the scope. -/
def outgoing (id : BlockId) : List Connection := (s.index.outgoing id).filter (s.contains ·.target)

def predecessors (id : BlockId) : List BlockId := ((s.incoming id).map (·.source)).eraseDups

def successors (id : BlockId) : List BlockId := ((s.outgoing id).map (·.target)).eraseDups

/-- The element of a list that has just one. -/
def only? {α : Type} : List α → Option α
  | [a] => some a
  | _ => none

def uniquePredecessor? (id : BlockId) : Option BlockId := only? (s.predecessors id)

def singleSuccessor? (id : BlockId) : Option BlockId := only? (s.successors id)

def feedsControlFlow (id : BlockId) : Bool := (s.successors id).any s.index.isControlFlow

/-- The part of a list up to and with the first element that satisfies `p`. -/
def upTo? {α : Type} (p : α → Bool) : List α → Option (List α)
  | [] => none
  | a :: rest => if p a then some [a] else (upTo? p rest).map (a :: ·)

/-- Whether `consumer`, outside the scope, is reached from it by going inward without entering
`producer` itself or a function. -/
def reachesInward (producer consumer : BlockId) : Bool :=
  let ancestors := s.index.ancestors consumer
  match upTo? s.contains ancestors with
  | none => false
  | some inside => !ancestors.contains producer && !inside.any s.index.isCallable

/-- The consumers of a block in zones below this scope.  Function bodies are written apart
from the place of the call, so what they read does not count. -/
def nestedConsumers (id : BlockId) : List BlockId :=
  ((((s.index.outgoing id).map (·.target)).filter fun t => !s.contains t).filter
    (s.reachesInward id)).eraseDups

def hasNestedConsumers (id : BlockId) : Bool := !(s.nestedConsumers id).isEmpty

/-- The producers of the scope, other than `id`, that are read somewhere inside `id`. -/
def readInside (id : BlockId) : List BlockId :=
  (s.index.connections.filter fun c =>
    s.contains c.source && c.source != id && (s.index.ancestors c.target).contains id).map (·.source)

/-- The blocks that have to be written before a block: its own producers, then those that its
zones read. -/
def dependencies (id : BlockId) : List BlockId :=
  ((s.incoming id).map (·.source) ++ s.readInside id).eraseDups

/-- The producers of a block that lie outside the scope. -/
def externalProducers (id : BlockId) : List BlockId :=
  (((s.index.incoming id).map (·.source)).filter fun p => !s.contains p).eraseDups

/-- The producers of a block: those in the scope first, then those outside. -/
def producers (id : BlockId) : List BlockId := s.predecessors id ++ s.externalProducers id

end Scope

namespace Index

/-- The scope of the blocks that lie in no zone. -/
def topScope (g : Index) : Scope := ⟨g, g.topLevel⟩

/-- The functions as one scope, which orders their definitions. -/
def callableScope (g : Index) : Scope := ⟨g, g.callables⟩

def zoneScope (g : Index) (place : Place) : Scope := ⟨g, g.zoneChildren place⟩

end Index

end BlockScript
