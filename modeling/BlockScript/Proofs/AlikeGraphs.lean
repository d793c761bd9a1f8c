import BlockScript.Proofs.AgreeingScopes
import BlockScript.Proofs.GivenNames

/-!
# Graphs that give the same script

What the zones of a container list matters only through the place that indexing gives to each
block.  Two graphs are `Index.Alike` when their blocks differ at most in these lists, and they have
the same connections, the same nesting, and the same blocks in each zone.  Then they have the same
orders, chains and names, and their scripts differ at most in what the stages of pipelines list
(`Layout.bare_script`), which is not written (`Entry.lines_bare`).
-/

namespace BlockScript

open Emit

/-! ### Blocks without their children -/

/-- The container with other children. -/
def Container.withChildren (children : ZoneLabel → List BlockId) : Container → Container
  | .ifElse condition _ _ => .ifElse condition (children .thenZone) (children .elseZone)
  | .forEach _ => .forEach (children .body)
  | .whileLoop condition _ => .whileLoop condition (children .body)
  | .tryCatch _ _ => .tryCatch (children .tryZone) (children .catchZone)
  | .function name inputParam _ => .function name inputParam (children .body)

namespace Block

/-- The block with other children. -/
def withChildren (children : ZoneLabel → List BlockId) (b : Block) : Block :=
  { b with container := b.container.map (Container.withChildren children) }

/-- The block without children. -/
def bare (b : Block) : Block := b.withChildren fun _ => []

variable (children : ZoneLabel → List BlockId) (b : Block)

@[simp] theorem bare_withChildren : (b.withChildren children).bare = b.bare := by
  rw [bare, bare, withChildren, withChildren, withChildren, Option.map_map]
  congr 2
  funext c
  cases c <;> rfl

@[simp] theorem id_bare : b.bare.id = b.id := rfl

@[simp] theorem functionName?_bare : b.bare.functionName? = b.functionName? := by
  simp only [bare, withChildren, functionName?]
  rcases b.container with _ | (_ | _ | _ | _ | _) <;> rfl

@[simp] theorem isCallable_bare : b.bare.isCallable = b.isCallable := by simp [isCallable]

@[simp] theorem isControlFlow_bare : b.bare.isControlFlow = b.isControlFlow := by
  rw [isControlFlow, isCallable_bare]
  simp [isControlFlow, isContainer, bare, withChildren]

@[simp] theorem expression_bare : b.bare.expression = b.expression := by
  rw [expression, functionName?_bare]
  rfl

end Block

/-! ### Entries without the children of their blocks -/

/-- The entry without the children of its blocks. -/
def Entry.bare : Entry → Entry
  | .pipeline level target source stages => .pipeline level target source (stages.map Block.bare)
  | e => e

/-- The children of the blocks are not written. -/
theorem Entry.lines_bare (size : Int) (e : Entry) : e.bare.lines size = e.lines size := by
  cases e with
  | pipeline level target source stages =>
    simp [bare, lines, pipelineText, segments, Function.comp_def]
  | _ => rfl

/-- The part without the children of its blocks. -/
def Layout.bare (part : Layout) : Layout := { part with entries := part.entries.map Entry.bare }

/-! ### Alike graphs -/

/-- The graphs differ at most in what the zones of their containers list, and in the order of the
nested blocks. -/
structure Index.Alike (g g' : Index) : Prop where
  blocks : g'.blocks.map Block.bare = g.blocks.map Block.bare
  connections : g'.connections = g.connections
  parent? : ∀ id, g'.parent? id = g.parent? id
  ancestors : ∀ id, g'.ancestors id = g.ancestors id
  zoneChildren : ∀ place, g'.zoneChildren place = g.zoneChildren place

/-- The scopes have the same blocks, in graphs that are alike. -/
structure Scope.Alike (s s' : Scope) : Prop where
  index : s.index.Alike s'.index
  ids : s'.ids = s.ids

namespace Index.Alike

variable {g g' : Index} (h : g.Alike g')
include h

theorem length_blocks : g'.blocks.length = g.blocks.length := by
  simpa using congrArg List.length h.blocks

theorem block? (id : BlockId) : (g'.block? id).map Block.bare = (g.block? id).map Block.bare := by
  have hfind : ∀ blocks : List Block, (blocks.find? (·.id == id)).map Block.bare =
      (blocks.map Block.bare).find? (·.id == id) := by
    intro blocks
    rw [List.find?_map]
    rfl
  rw [Index.block?, Index.block?, hfind, hfind, h.blocks]

/-- Both graphs have the block, up to its children, or neither has it. -/
theorem block?_cases (id : BlockId) : (g.block? id = none ∧ g'.block? id = none) ∨
    ∃ b b', g.block? id = some b ∧ g'.block? id = some b' ∧ b'.bare = b.bare := by
  have heq := h.block? id
  cases hb : g.block? id with
  | none => exact Or.inl ⟨rfl, by simpa [hb] using heq⟩
  | some b =>
    rw [hb, Option.map_some, Option.map_eq_some_iff] at heq
    obtain ⟨b', hb', hbare⟩ := heq
    exact Or.inr ⟨b, b', rfl, hb', hbare⟩

theorem isControlFlow (id : BlockId) : g'.isControlFlow id = g.isControlFlow id := by
  rcases h.block?_cases id with ⟨hb, hb'⟩ | ⟨b, b', hb, hb', hbare⟩
  · simp [Index.isControlFlow, hb, hb']
  · simp [Index.isControlFlow, hb, hb', ← b'.isControlFlow_bare, hbare]

theorem isCallable (id : BlockId) : g'.isCallable id = g.isCallable id := by
  rcases h.block?_cases id with ⟨hb, hb'⟩ | ⟨b, b', hb, hb', hbare⟩
  · simp [Index.isCallable, hb, hb']
  · simp [Index.isCallable, hb, hb', ← b'.isCallable_bare, hbare]

theorem map_bare_filterMap (ids : List BlockId) : (ids.filterMap g'.block?).map Block.bare =
    (ids.filterMap g.block?).map Block.bare := by
  simp only [List.map_filterMap, h.block?]

theorem topScope : g.topScope.Alike g'.topScope where
  index := h
  ids := by
    have hids : ∀ blocks : List Block,
        blocks.map Block.id = (blocks.map Block.bare).map Block.id := by
      simp [Function.comp_def]
    simp only [Index.topScope, topLevel, h.parent?]
    rw [hids, h.blocks, ← hids]

theorem callableScope : g.callableScope.Alike g'.callableScope where
  index := h
  ids := by
    have hids : ∀ blocks : List Block, (blocks.filter Block.isCallable).map Block.id =
        ((blocks.map Block.bare).filter Block.isCallable).map Block.id := by
      simp [List.filter_map, Function.comp_def]
    simp only [Index.callableScope, callables]
    rw [hids, h.blocks, ← hids]

theorem zoneScope (place : Place) : (g.zoneScope place).Alike (g'.zoneScope place) where
  index := h
  ids := h.zoneChildren place

theorem scopeAt (P : Option Place) : (g.scopeAt P).Alike (g'.scopeAt P) := by
  cases P with
  | none => exact h.topScope
  | some place => exact h.zoneScope place

theorem scopesFrom (P : Option Place) : g'.scopesFrom P = g.scopesFrom P := by
  cases P with
  | none => rfl
  | some place => simp only [Index.scopesFrom, h.ancestors, h.isCallable, funext h.parent?]

end Index.Alike

/-! ### Orders, chains and statements -/

namespace Scope.Alike

variable {s s' : Scope} (h : s.Alike s')
include h

theorem contains (id : BlockId) : s'.contains id = s.contains id := by
  rw [Scope.contains, Scope.contains, h.ids]

theorem agree : s.Agree s' where
  connections := h.index.connections
  ancestors := h.index.ancestors
  isControlFlow := h.index.isControlFlow
  isCallable := h.index.isCallable
  contains := fun id _ => h.contains id

theorem sorted : s'.sorted = s.sorted := h.agree.sorted h.ids

theorem chains (order : List BlockId) : s'.chains order = s.chains order :=
  h.agree.chains h.ids order

theorem statements (order : List BlockId) : s'.statements order = s.statements order :=
  h.agree.statements h.ids order

end Scope.Alike

/-! ### Names -/

namespace Binder

@[simp] theorem explicitName?_bare (b : Block) : explicitName? b.bare = explicitName? b := rfl

@[simp] theorem baseName_bare (b : Block) : baseName b.bare = baseName b := by
  rw [baseName, Block.functionName?_bare]
  rfl

@[simp] theorem nameFor_bare (binder : Binder) (members : List Block) (last : Block) :
    binder.nameFor (members.map Block.bare) last.bare = binder.nameFor members last := by
  have hexplicit : explicitName? ∘ Block.bare = explicitName? := funext explicitName?_bare
  have hcandidates : binder.candidates last.bare = binder.candidates last := by
    rw [candidates, baseName_bare]
    rfl
  simp only [nameFor, ← List.map_reverse, List.findSome?_map, hexplicit, synthesize, hcandidates,
    baseName_bare]

theorem bindChain_alike {s s' : Scope} (h : s.Alike s') (state : State) (c : Chain) :
    bindChain s' state c = bindChain s state c := by
  rw [bindChain, bindChain, h.agree.chainNeedsName]
  rcases h.index.block?_cases c.terminal with ⟨hb, hb'⟩ | ⟨b, b', hb, hb', hbare⟩
  · rw [hb, hb']
    cases chainNeedsName s c <;> rfl
  · have hname : state.2.nameFor (c.members.filterMap s'.index.block?) b' =
        state.2.nameFor (c.members.filterMap s.index.block?) b := by
      rw [← nameFor_bare, h.index.map_bare_filterMap, hbare, nameFor_bare]
    rw [hb, hb']
    cases chainNeedsName s c with
    | false => rfl
    | true => simp only [hname]

theorem bindContainer_alike {s s' : Scope} (h : s.Alike s') (state : State) (id : BlockId) :
    bindContainer s' state id = bindContainer s state id := by
  have hneeds := h.agree.containerNeedsName id
  rcases h.index.block?_cases id with ⟨hb, hb'⟩ | ⟨b, b', hb, hb', hbare⟩
  · simp only [bindContainer, hb, hb']
  · have hname := nameFor_bare state.2 [b'] b'
    rw [List.map_singleton, hbare, ← List.map_singleton, nameFor_bare] at hname
    simp only [bindContainer, hb, hb', hneeds, ← b'.isControlFlow_bare, hbare, hname,
      Block.isControlFlow_bare]

theorem bindScope_alike {s s' : Scope} (h : s.Alike s') (b : Binder) (chains : List Chain)
    (order : List BlockId) : b.bindScope s' chains order = b.bindScope s chains order := by
  have hchain : bindChain s' = bindChain s := funext₂ (bindChain_alike h)
  have hcontainer : bindContainer s' = bindContainer s := funext₂ (bindContainer_alike h)
  rw [bindScope, bindScope, hchain, hcontainer]

end Binder

namespace Index.Alike

variable {g g' : Index} (h : g.Alike g')
include h

theorem namesAfter (b : Binder) (scopes : List (Option Place)) :
    g'.namesAfter b scopes = g.namesAfter b scopes := by
  have hscope : g'.nameScope = g.nameScope := by
    funext names P
    simp only [nameScope, (h.scopeAt P).sorted, (h.scopeAt P).chains,
      Binder.bindScope_alike (h.scopeAt P)]
  rw [Index.namesAfter, Index.namesAfter, hscope]

/-! ### The scopes that are written -/

theorem branches {b b' : Block} (hbare : b'.bare = b.bare) (target : Option String)
    (source : Option Source) :
    Emit.branches g' b' target source = Emit.branches g b target source := by
  have hbranches : ∀ b, Emit.branches g b.bare target source = Emit.branches g b target source := by
    intro b
    simp only [Emit.branches, Block.bare, Block.withChildren]
    rcases b.container with _ | (_ | _ | _ | _ | _) <;> rfl
  have hzones : Emit.branches g' b' target source = Emit.branches g b' target source := by
    simp only [Emit.branches, h.zoneChildren]
  rw [hzones, ← hbranches b', hbare, hbranches]

theorem statementZones : g'.statementZones = g.statementZones := by
  funext st
  cases st with
  | chain c => rfl
  | container id =>
    rcases h.block?_cases id with ⟨hb, hb'⟩ | ⟨b, b', hb, hb', hbare⟩
    · simp only [Index.statementZones, hb, hb']
    · simp only [Index.statementZones, hb, hb', branchZones, h.branches hbare]

theorem zonesOf (P : Option Place) (order : List BlockId) :
    g'.zonesOf P order = g.zonesOf P order := by
  rw [Index.zonesOf, Index.zonesOf, (h.scopeAt P).statements, h.statementZones]

theorem scopesIn (depth : Nat) : g'.scopesIn depth = g.scopesIn depth := by
  induction depth with
  | zero => rfl
  | succ depth ih =>
    funext place
    simp only [Index.scopesIn, (h.zoneScope place).ids, (h.zoneScope place).sorted, h.zonesOf, ih]

theorem written (functions main : List BlockId) :
    g'.written functions main = g.written functions main := by
  simp only [Index.written, h.scopesIn, h.length_blocks, h.zonesOf]

theorem orders : Snapshot.orders g' = Snapshot.orders g := by
  rw [Snapshot.orders, Snapshot.orders, h.topScope.sorted, h.callableScope.sorted]

end Index.Alike

/-! ### Layouts -/

namespace Layout

theorem bare_eq_iff {part part' : Layout} : part'.bare = part.bare ↔
    part'.entries.map Entry.bare = part.entries.map Entry.bare ∧
      part'.findings = part.findings := by
  simp [bare]

theorem bare_join_congr {α : Type} {l : List α} {f f' : α → Layout}
    (h : ∀ a ∈ l, (f' a).bare = (f a).bare) : (join (l.map f')).bare = (join (l.map f)).bare := by
  refine bare_eq_iff.mpr ⟨?_, ?_⟩
  · simp only [entries_join, List.flatMap_map, List.map_flatMap]
    exact List.flatMap_congr fun a ha => (bare_eq_iff.mp (h a ha)).1
  · simp only [findings_join, List.flatMap_map]
    exact List.flatMap_congr fun a ha => (bare_eq_iff.mp (h a ha)).2

theorem bare_spaced {part part' : Layout} (h : part'.bare = part.bare) (separate : Bool) :
    (spaced separate part').bare = (spaced separate part).bare := by
  obtain ⟨hentries, hfindings⟩ := bare_eq_iff.mp h
  refine bare_eq_iff.mpr ⟨?_, hfindings⟩
  rw [entries_spaced, entries_spaced, List.map_append, List.map_append, hentries]

section

variable {g g' : Index} (h : g.Alike g') (t : Table)
include h

theorem inflow_alike (P : Option Place) (input : Option Source) (id : BlockId) :
    inflow g' t P input id = inflow g t P input id := by
  have hname : g'.readName? t P = g.readName? t P := by
    funext producer
    simp only [Index.readName?, h.parent?, h.scopesFrom]
  simp only [inflow, (h.scopeAt P).agree.producers, hname, (h.scopeAt P).contains]

variable {zone zone' : Place → Option Source → Int → Layout}
  (hzone : ∀ place input level, (zone' place input level).bare = (zone place input level).bare)
include hzone

omit h in
theorem bare_branch (level : Int) (owner : BlockId) (b : Branch) :
    (branch zone' level owner b).bare = (branch zone level owner b).bare := by
  obtain ⟨hentries, hfindings⟩ := bare_eq_iff.mp (hzone ⟨owner, b.zone⟩ b.input (level + 1))
  exact bare_eq_iff.mpr ⟨by simp [branch, hentries], hfindings⟩

theorem bare_body (level : Int) (source : Option Source) (st : Statement) :
    (body g' t zone' level source st).bare = (body g t zone level source st).bare := by
  cases st with
  | chain c => simp [body, bare, Entry.bare, h.map_bare_filterMap]
  | container id =>
    rcases h.block?_cases id with ⟨hb, hb'⟩ | ⟨b, b', hb, hb', hbare⟩
    · simp only [body, hb, hb']
    · simp only [body, hb, hb', h.branches hbare]
      exact bare_join_congr fun branch _ => bare_branch hzone level id branch

theorem bare_statement (P : Option Place) (input : Option Source) (level : Int) (st : Statement) :
    (statement g' t zone' P input level st).bare = (statement g t zone P input level st).bare := by
  rw [statement, statement, inflow_alike h]
  obtain ⟨hentries, hfindings⟩ :=
    bare_eq_iff.mp (bare_body h t hzone level (inflow g t P input st.lead).1 st)
  exact bare_eq_iff.mpr ⟨hentries, by simp only [hfindings]⟩

theorem bare_scope (P : Option Place) (order : List BlockId) (input : Option Source) (level : Int)
    (separate : Bool) : (scope g' t zone' P order input level separate).bare =
      (scope g t zone P order input level separate).bare := by
  rw [scope, scope, (h.scopeAt P).statements]
  exact bare_join_congr fun st _ => bare_spaced (bare_statement h t hzone P input level st) separate

omit hzone

theorem bare_zone (depth : Nat) (place : Place) (input : Option Source) (level : Int) :
    (Layout.zone g' t depth place input level).bare =
      (Layout.zone g t depth place input level).bare := by
  induction depth generalizing place input level with
  | zero => rfl
  | succ depth ih =>
    rw [Layout.zone, Layout.zone, (h.zoneScope place).ids, (h.zoneScope place).sorted]
    split
    · rfl
    · split
      · rfl
      · exact bare_scope h t ih (some place) _ input level false

theorem bare_functionBody (id : BlockId) (inputParam : String) :
    (functionBody g' t id inputParam).bare = (functionBody g t id inputParam).bare := by
  rw [functionBody, functionBody, h.length_blocks]
  split
  · exact bare_zone h t _ _ _ _
  · obtain ⟨hentries, hfindings⟩ := bare_eq_iff.mp (bare_zone h t g.blocks.length ⟨id, .body⟩
      (some (.parameter (Naming.identifier (Text.trim inputParam)))) 2)
    exact bare_eq_iff.mpr ⟨by simp [hentries], hfindings⟩

theorem bare_definition (id : BlockId) :
    (definition g' t id).bare = (definition g t id).bare := by
  rcases h.block?_cases id with ⟨hb, hb'⟩ | ⟨b, b', hb, hb', hbare⟩
  · simp only [definition, hb, hb', Option.bind_none]
  · have hcontainer : b'.bare.container = b.bare.container := congrArg Block.container hbare
    rw [definition, definition, hb, hb', Option.bind_some, Option.bind_some]
    cases hc : b.container with
    | none =>
      have hc' : b'.container = none := by
        simpa [Block.bare, Block.withChildren, hc] using hcontainer
      simp only [hc']
    | some c =>
      obtain ⟨c', hc', heq⟩ : ∃ c', b'.container = some c' ∧
          c'.withChildren (fun _ => []) = c.withChildren fun _ => [] := by
        simpa [Block.bare, Block.withChildren, hc] using hcontainer
      rw [hc']
      cases c <;> cases c' <;> simp only [Container.withChildren, reduceCtorEq] at heq
      case function.function name inputParam body name' inputParam' body' =>
        obtain ⟨rfl, rfl⟩ : name' = name ∧ inputParam' = inputParam := by simpa using heq
        obtain ⟨hentries, hfindings⟩ := bare_eq_iff.mp (bare_functionBody h t id inputParam')
        exact bare_eq_iff.mpr ⟨by simp [hentries], hfindings⟩
      all_goals rfl

theorem bare_definitions (functions : List BlockId) :
    (definitions g' t functions).bare = (definitions g t functions).bare :=
  bare_join_congr fun id _ => bare_spaced (bare_definition h t id) true

theorem bare_execution (main : List BlockId) :
    (execution g' t main).bare = (execution g t main).bare := by
  rw [execution, execution, h.length_blocks]
  split
  · rfl
  · exact bare_scope h t (bare_zone h t _) none main none 0 true

/-- **Alike graphs have the same script**, up to the children of the blocks in its pipelines. -/
theorem bare_script (functions main : List BlockId) :
    (script g' t functions main).bare = (script g t functions main).bare := by
  obtain ⟨hdefined, hfound⟩ := bare_eq_iff.mp (bare_definitions h t functions)
  obtain ⟨hexecuted, hfound'⟩ := bare_eq_iff.mp (bare_execution h t main)
  have hpart : ∀ banner blocks entries, (Plan.part banner blocks entries).map Entry.bare =
      Plan.part banner blocks (entries.map Entry.bare) := by
    intro banner blocks entries
    cases blocks <;> rfl
  refine bare_eq_iff.mpr ⟨?_, ?_⟩
  · simp only [script, List.map_append, hpart, hdefined, hexecuted]
  · simp only [script, hfound, hfound']

end

end Layout

end BlockScript
