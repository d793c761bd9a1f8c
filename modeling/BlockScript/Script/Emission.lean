import BlockScript.Naming.Binder
import BlockScript.Scope.Order
import BlockScript.Script.Entry

/-!
# Emission

A scope becomes entries: each chain one pipeline, each control-flow container an opening, the
entries of its zones, and a closing.  What a statement reads is found among the bindings of its
own scope first, then among those of the scopes around it; a block without a producer takes the
input of its scope.

A `Pass` is what a generation carries along: the names given, the table of bindings, and the
journal of what happened.  What it asks about its graph on the way is collected in `Answers`.
-/

namespace BlockScript

/-- What happens during a generation. -/
inductive Event where
  | finding (f : Finding)
  /-- A scope is about to be written. -/
  | scope (blocks : Nat) (level : Int) (chains bindings : Nat)
  /-- The script is complete. -/
  | script (blocks bindings diagnostics : Nat)
  deriving DecidableEq, Repr

def Event.finding? : Event → Option Finding
  | .finding f => some f
  | _ => none

structure Pass where
  binder : Binder := {}
  table : Table := {}
  journal : List Event := []
  deriving DecidableEq, Repr

namespace Pass

def note (p : Pass) (event : Event) : Pass := { p with journal := p.journal ++ [event] }

/-- The findings of the journal, in order. -/
def findings (p : Pass) : List Finding := p.journal.filterMap Event.finding?

end Pass

/-- A step of a generation whose answers come in `m`. -/
abbrev EmitT (m : Type → Type) := StateT Pass m

/-- A step of a generation. -/
abbrev Emit := EmitT Id

namespace Emit

/-- A unit of a scope: a control-flow container, or a chain. -/
inductive Statement where
  | container (id : BlockId)
  | chain (c : Chain)
  deriving DecidableEq, Repr

/-- The blocks that a statement writes. -/
def Statement.members : Statement → List BlockId
  | .container id => [id]
  | .chain c => c.members

/-- Takes the next block of the order.  A chain is written as a whole where the first of its
members comes up. -/
def addStatement (g : Index) (chains : List Chain) (statements : List Statement) (id : BlockId) :
    List Statement :=
  if (statements.flatMap Statement.members).contains id then statements
  else if g.isControlFlow id then statements ++ [.container id]
  else match chains.find? (·.members.contains id) with
    | some c => statements ++ [.chain c]
    | none => statements

/-- The statements of a scope. -/
def statements (g : Index) (chains : List Chain) (order : List BlockId) : List Statement :=
  order.foldl (addStatement g chains) []

/-- A zone of a container as it is written: what stands at its opening brace, and its input. -/
structure Branch where
  target : Option String := none
  source : Option Source := none
  what : Opening
  zone : ZoneLabel
  input : Option Source
  deriving DecidableEq, Repr

/-- The branches of a control-flow container.  The item of a loop is the input of its body,
nothing is the input of a catch zone, and the other zones take the input of the container.  An
empty else zone is left out. -/
def branches (g : Index) (block : Block) (target : Option String) (source : Option Source) :
    List Branch :=
  match block.container with
  | some (.ifElse condition _ _) =>
    ⟨target, source, .ifBranch (Container.resolveCondition condition), .thenZone, source⟩ ::
      if (g.zoneChildren ⟨block.id, .elseZone⟩).isEmpty then []
      else [⟨none, none, .elseBranch, .elseZone, source⟩]
  | some (.forEach _) => [⟨target, source, .forEach, .body, some .item⟩]
  | some (.whileLoop condition _) =>
    [⟨target, source, .whileLoop (Container.resolveCondition condition), .body, source⟩]
  | some (.tryCatch _ _) =>
    [⟨target, source, .tryBranch, .tryZone, source⟩, ⟨none, none, .catchBranch, .catchZone, none⟩]
  | _ => []

end Emit

open Emit in
/-- What a generation asks about its snapshot and the graph.  Plain answers, those in `Id`, are
always given; in another monad, an answer may stop the generation. -/
class Answers (m : Type → Type) where
  nesting : Snapshot → m Nesting
  /-- The orders of the functions and of the top level. -/
  orders : Index → m (Except (List BlockId) (List BlockId × List BlockId))
  sorted : Scope → m (Except (List BlockId) (List BlockId))
  chains : Scope → List BlockId → m (List Chain)
  bindScope : Binder → Scope → List Chain → List BlockId → m Binder.State
  statements : Scope → List BlockId → m (List Statement)
  producers : Scope → BlockId → m (List BlockId)
  block? : Index → BlockId → m (Option Block)
  stages : Index → Chain → m (List Block)
  branches : Index → Block → Option String → Option Source → m (List Branch)
  /-- The scope of a zone that is entered from the scope of the zone `outer`. -/
  zoneScope : Index → (outer : Option Place) → Place → m Scope
  /-- What is written of a zone when no level is left for it. -/
  cutOff : Place → m (List Entry)
  /-- The name and the parameter of a function. -/
  signature? : Index → BlockId → m (Option (String × String))

@[default_instance] instance : Answers Id where
  nesting s := s.nesting
  orders g := Snapshot.orders g
  sorted s := s.sorted
  chains s order := s.chains order
  bindScope b s chains order := b.bindScope s chains order
  statements s order := Emit.statements s.index (s.chains order) order
  producers s id := s.producers id
  block? g id := g.block? id
  stages g c := c.members.filterMap g.block?
  branches g block target source := Emit.branches g block target source
  zoneScope g _ place := g.zoneScope place
  cutOff _ := []
  signature? g id := match (g.block? id).bind Block.container with
    | some (.function name inputParam _) => some (name, inputParam)
    | _ => none

namespace Emit

/-- What the statements of a scope have in common. -/
structure Surroundings where
  scope : Scope
  /-- The bindings of the scope itself. -/
  bound : List Binding
  /-- The bindings that can be seen, those of the scope among them. -/
  view : View
  /-- The input of the scope, for blocks without a producer. -/
  input : Option Source
  level : Int

/-- The name under which the result of `producer` can be read. -/
def visibleName? (t : Table) (around : Surroundings) (producer : BlockId) : Option String :=
  ((Binding.nameIn around.bound producer).filter (· ≠ "")).or
    ((t.lookup around.view producer).filter (· ≠ ""))

/-- What is piped into the statement of a block with these producers, and what there is to say
about it. -/
def inflow (t : Table) (around : Surroundings) (id : BlockId) (producers : List BlockId) :
    Option Source × Option Finding :=
  match producers with
  | [] => (around.input, none)
  | [producer] => match visibleName? t around producer with
    | some name => (some (.variable producer name), none)
    | none =>
      if around.scope.contains producer then (none, none)
      else (around.input, some (.unseenProducer id producer))
  | producers => (none, some (.severalProducers id producers))

section

variable {m : Type → Type} [Monad m] [ask : Answers m]

def note (event : Event) : EmitT m Unit := modify (·.note event)

/-- What is piped into the statement of a block; what there is to say goes to the journal. -/
def resolve (around : Surroundings) (id : BlockId) : EmitT m (Option Source) := do
  let producers ← ask.producers around.scope id
  let (source, finding) := inflow (← get).table around id producers
  match finding with
  | some f => note (.finding f)
  | none => pure ()
  return source

/-- How a zone is written: with the bindings it can see, its input, and its level. -/
abbrev ZoneWriter (m : Type → Type) := Place → View → Option Source → Int → EmitT m (List Entry)

/-- Writes a branch: an opening, the zone one level further in, and a closing. -/
def branch (zone : ZoneWriter m) (around : Surroundings) (owner : BlockId) (b : Branch) :
    EmitT m (List Entry) := do
  let inner ← zone ⟨owner, b.zone⟩ around.view b.input (around.level + 1)
  return .opening around.level owner b.target b.source b.what :: inner ++
    [.closing around.level owner]

/-- Writes a control-flow container, branch after branch. -/
def container (zone : ZoneWriter m) (around : Surroundings) (block : Block)
    (target : Option String) (source : Option Source) : EmitT m (List Entry) := do
  let branches ← ask.branches around.scope.index block target source
  let parts ← branches.mapM (branch zone around block.id)
  return parts.flatten

/-- Writes a statement. -/
def statement (zone : ZoneWriter m) (around : Surroundings) : Statement → EmitT m (List Entry)
  | .container id => do
    let source ← resolve around id
    match ← ask.block? around.scope.index id with
    | some block => container zone around block (Binding.nameIn around.bound id) source
    | none => return []
  | .chain c => do
    let source ← resolve around c.head
    let stages ← ask.stages around.scope.index c
    return [.pipeline around.level (Binding.nameIn around.bound c.terminal) source stages]

/-- Names and publishes the results of a scope. -/
def enter (s : Scope) (order : List BlockId) (inherited : View) (input : Option Source)
    (level : Int) : EmitT m Surroundings := do
  let p ← get
  let chains ← ask.chains s order
  let (bound, binder) ← ask.bindScope p.binder s chains order
  let (table, view) := p.table.publish bound inherited
  set { p with binder, table }
  note (.scope order.length level chains.length bound.length)
  return ⟨s, bound, view, input, level⟩

/-- Writes a scope whose blocks are in order; `separate` puts a blank line after each
statement. -/
def sortedScope (zone : ZoneWriter m) (s : Scope) (order : List BlockId) (inherited : View)
    (input : Option Source) (level : Int) (separate : Bool) : EmitT m (List Entry) := do
  let around ← enter s order inherited input level
  let statements ← ask.statements s order
  let parts ← statements.mapM fun st => do
    let entries ← statement zone around st
    return if separate then entries ++ [.blank] else entries
  return parts.flatten

/-- Writes a zone that is entered from the scope of the zone `outer`.  Zones lie in each other no
deeper than there are blocks, and `depth` is how many levels are left. -/
def zone (g : Index) : Nat → (outer : Option Place) → ZoneWriter m
  | 0, _, place, _, _, _ => ask.cutOff place
  | depth + 1, outer, place, inherited, input, level => do
    let s ← ask.zoneScope g outer place
    if s.ids.isEmpty then return [.emptyZone level place]
    match ← ask.sorted s with
    | .error cycle =>
      note (.finding (.zoneCycle place cycle))
      return [.brokenZone level place]
    | .ok order => sortedScope (zone g depth (some place)) s order inherited input level false

/-- Writes a scope of the graph whose blocks are in order. -/
def scope (s : Scope) (order : List BlockId) (inherited : View) (input : Option Source)
    (level : Int) (separate : Bool) : EmitT m (List Entry) :=
  sortedScope (zone s.index s.index.blocks.length none) s order inherited input level separate

/-- Writes the definition of a function.  Its parameter, if it has one, is declared and is the
input of the body. -/
def definition (g : Index) (id : BlockId) : EmitT m (List Entry) := do
  match ← ask.signature? g id with
  | some (name, inputParam) =>
    let writeBody := zone g g.blocks.length none ⟨id, .body⟩ {}
    let body ←
      if Text.isBlankText inputParam then writeBody none 1
      else do
        let parameter := Naming.identifier (Text.trim inputParam)
        let inner ← writeBody (some (.parameter parameter)) 2
        pure (.parameters 1 parameter :: .opening 1 id none none .process :: inner ++
          [.closing 1 id])
    return .opening 0 id none none (.function (Container.resolveFunctionName name)) :: body ++
      [.closing 0 id]
  | none => return []

end

end Emit

end BlockScript
