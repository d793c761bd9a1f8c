import BlockScript.Naming.Binding
import BlockScript.Naming.Identifier
import BlockScript.Scope.Chain

/-!
# Choosing names

A binder gives names to the results of one scope after another and never gives the same name
twice, whatever the case of its letters.  A chain is bound when its result is read other than
by the next stage of a pipeline; a control-flow container when it is read at all.

A block's own output variable is preferred.  Without one, the name is made of the title and as
much of the block's id as it takes to be new; a counter settles what is left.
-/

namespace BlockScript

structure Binder where
  /-- The least number of id characters in a made-up name. -/
  suffixLength : Int := 4
  /-- The names given so far, in lower case. -/
  used : List String := []
  deriving DecidableEq, Repr

namespace Binder

def isUsed (b : Binder) (name : String) : Bool := b.used.contains (Naming.foldCase name)

/-- Takes a name. -/
def take (b : Binder) (name : String) : String × Binder :=
  (name, { b with used := b.used ++ [Naming.foldCase name] })

/-- A name with a counter. -/
def numbered (name : String) (n : Nat) : String := name ++ "_" ++ toString n

/-- The first counter, from two on, that makes the name new.  The used names cannot take all
of the first `used.length + 1` counters. -/
def freshNumber (b : Binder) (name : String) : Nat :=
  ((List.range (b.used.length + 1)).find? fun n => !b.isUsed (numbered name (n + 2))).getD 0 + 2

/-- Takes the name, or the name with the first counter that makes it new. -/
def takeUnique (b : Binder) (name : String) : String × Binder :=
  if b.isUsed name then b.take (numbered name (b.freshNumber name)) else b.take name

/-- The part of a made-up name that says what the block is. -/
def baseName (block : Block) : String := Naming.identifier (block.functionName?.getD block.title)

/-- The made-up names of a block, with more and more of its id. -/
def candidates (b : Binder) (block : Block) : List String :=
  let chars := Naming.idChars block.id
  let least := min (max 1 b.suffixLength).toNat chars.length
  ((List.range (chars.length + 1)).filter fun n => least ≤ n && 0 < n).map fun n =>
    baseName block ++ "_" ++ String.ofList (chars.take n)

/-- Takes the first made-up name that is new. -/
def synthesize (b : Binder) (block : Block) : String × Binder :=
  let candidates := b.candidates block
  match candidates.find? (!b.isUsed ·) with
  | some name => b.take name
  | none => b.takeUnique (candidates.getLast?.getD (baseName block))

/-- The name a block asks for itself. -/
def explicitName? (block : Block) : Option String :=
  if Text.isBlankText block.outputVariable then none
  else some (Naming.identifier block.outputVariable)

/-- Takes a name for the result of blocks that are written as one: the last one that asks for a
name has its way, and else the name is made up for `last`. -/
def nameFor (b : Binder) (members : List Block) (last : Block) : String × Binder :=
  match members.reverse.findSome? explicitName? with
  | some name => b.takeUnique name
  | none => b.synthesize last

/-- Whether the result of a chain is read other than by the next stage of a pipeline. -/
def chainNeedsName (s : Scope) (c : Chain) : Bool :=
  1 < (s.outgoing c.terminal).length || s.feedsControlFlow c.terminal ||
    s.hasNestedConsumers c.terminal

/-- Whether the result of a control-flow container is read. -/
def containerNeedsName (s : Scope) (id : BlockId) : Bool :=
  0 < (s.outgoing id).length || s.hasNestedConsumers id

/-- The names found so far for a scope, and the binder after them. -/
abbrev State := List Binding × Binder

def bindChain (s : Scope) (state : State) (c : Chain) : State :=
  match chainNeedsName s c, s.index.block? c.terminal with
  | true, some last =>
    let (name, b) := state.2.nameFor (c.members.filterMap s.index.block?) last
    (Binding.set ⟨c.terminal, name⟩ state.1, b)
  | _, _ => state

def bindContainer (s : Scope) (state : State) (id : BlockId) : State :=
  match s.index.block? id with
  | none => state
  | some block =>
    if block.isControlFlow && (Binding.nameIn state.1 id).isNone && containerNeedsName s id then
      let (name, b) := state.2.nameFor [block] block
      (state.1 ++ [⟨id, name⟩], b)
    else state

/-- The bindings of a scope: first its chains, then its control-flow containers, in order. -/
def bindScope (b : Binder) (s : Scope) (chains : List Chain) (order : List BlockId) : State :=
  order.foldl (bindContainer s) (chains.foldl (bindChain s) ([], b))

end Binder

end BlockScript
