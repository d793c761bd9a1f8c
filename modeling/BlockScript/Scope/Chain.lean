import BlockScript.Scope.Basic

/-!
# Chains

Blocks that feed one another one to one are written as the stages of one pipeline.  A chain
goes on as long as a block has a single consumer in the scope, nobody further in reads it, and
that consumer is no control-flow container and has no other connection into it.
-/

namespace BlockScript

structure Chain where
  head : BlockId
  tail : List BlockId := []
  deriving DecidableEq, Repr

namespace Chain

def members (c : Chain) : List BlockId := c.head :: c.tail

/-- The last member, whose result is the result of the chain. -/
def terminal (c : Chain) : BlockId := c.tail.getLast?.getD c.head

end Chain

namespace Scope

variable (s : Scope)

/-- Whether a block belongs behind its producer rather than at the head of a chain. -/
def continuesChain (id : BlockId) : Bool :=
  match s.uniquePredecessor? id with
  | none => false
  | some p =>
    !s.index.isControlFlow p && (s.outgoing p).length == 1 && !s.hasNestedConsumers p

/-- The block that follows `current` in its chain. -/
def nextStage? (assigned : List BlockId) (current : BlockId) : Option BlockId :=
  if s.hasNestedConsumers current then none
  else (s.singleSuccessor? current).filter fun next =>
    !assigned.contains next && !s.index.isControlFlow next && (s.incoming next).length == 1

/-- The stages after `current`.  Each is new and lies in the scope, which bounds their number. -/
def stagesAfter : Nat → List BlockId → BlockId → List BlockId
  | 0, _, _ => []
  | fuel + 1, assigned, current => match s.nextStage? assigned current with
    | none => []
    | some next => next :: stagesAfter fuel (next :: assigned) next

/-- Takes the next block of the order: it starts a chain unless it is a control-flow container,
or has its place in a chain that began or begins elsewhere. -/
def addToChains (chains : List Chain) (id : BlockId) : List Chain :=
  let assigned := chains.flatMap Chain.members
  if assigned.contains id || s.index.isControlFlow id || s.continuesChain id then chains
  else chains ++ [⟨id, s.stagesAfter s.ids.length (id :: assigned) id⟩]

/-- The chains of a scope, in the order of their heads. -/
def chains (order : List BlockId) : List Chain := order.foldl s.addToChains []

end Scope

end BlockScript
