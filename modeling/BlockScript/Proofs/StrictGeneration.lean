import BlockScript.Proofs.LayoutEntries
import BlockScript.Proofs.NewNames
import BlockScript.Proofs.StrictQueries

/-!
# Generation never gets stuck

With plain answers, generation passes over what it does not find: a block without a chain is left
out, a container of an unknown kind has no branches, and a zone is not written where the levels
end.  The answers of `Strict` stop the generation at each of these.  A zone, too, has to lie deeper
in the nesting than the scope that it is entered from.  `Strict.generate` is the generation that
asks for these answers, and it is the same steps that are taken.

* `Strict.statements_eq`: **every block of an ordered scope that is no control-flow container is
  in a chain.**
* `Strict.zone_eq`: **writing a zone does not get stuck**, by induction on the levels left.
* `generate_never_stuck`: **neither does the generation of a valid snapshot**, and strictly it
  gives what generation gives.
-/

namespace BlockScript

namespace Strict

/-! ### Names -/

/-- The first counter that makes the name new, which has to be found. -/
def freshNumber (b : Binder) (name : String) : Except Stuck Nat :=
  match (List.range (b.used.length + 1)).find? fun n =>
      !b.isUsed (Binder.numbered name (n + 2)) with
  | some n => pure (n + 2)
  | none => throw .endless

/-- Each name that can be asked for on behalf of the blocks has a counter. -/
def nameable (b : Binder) (members : List Block) (last : Block) : Except Stuck Unit := do
  let wished := members.filterMap Binder.explicitName? ++ b.candidates last
  let _ ← (Binder.baseName last :: wished).mapM (freshNumber b)

def bindChain (s : Scope) (state : Binder.State) (c : Chain) : Except Stuck Binder.State := do
  let _ ← successors s c.terminal
  let _ ← nestedConsumers s c.terminal
  nameable state.2 (← blocks s.index c.members) (← block s.index c.terminal)
  return Binder.bindChain s state c

def bindContainer (s : Scope) (state : Binder.State) (id : BlockId) :
    Except Stuck Binder.State := do
  let container ← block s.index id
  let _ ← nestedConsumers s id
  nameable state.2 [container] container
  return Binder.bindContainer s state id

def bindScope (b : Binder) (s : Scope) (chains : List Chain) (order : List BlockId) :
    Except Stuck Binder.State := do
  order.foldlM (bindContainer s) (← chains.foldlM (bindChain s) ([], b))

theorem nameable_eq (b : Binder) (members : List Block) (last : Block) :
    nameable b members last = pure () := by
  have hfresh : ∀ name, freshNumber b name = pure (b.freshNumber name) := by
    intro name
    obtain ⟨n, hfind⟩ := b.exists_counter name
    simp only [freshNumber, Binder.freshNumber, hfind, Option.getD_some]
  rw [nameable, mapM_eq_pure fun name _ => hfresh name, pure_bind]

section

variable {s : Scope}

theorem bindChain_eq (hg : s.index.Consistent) (state : Binder.State) {c : Chain}
    (hc : c.members ⊆ s.index.ids) : bindChain s state c = pure (Binder.bindChain s state c) := by
  obtain ⟨last, hlast⟩ := Index.exists_block? (hc c.terminal_mem)
  simp only [bindChain, successors_eq hg, nestedConsumers_eq hg, blocks_eq hc, block_eq hlast,
    nameable_eq, pure_bind]

theorem bindContainer_eq (hg : s.index.Consistent) (state : Binder.State) {id : BlockId}
    (hid : id ∈ s.index.ids) :
    bindContainer s state id = pure (Binder.bindContainer s state id) := by
  obtain ⟨container, hb⟩ := Index.exists_block? hid
  simp only [bindContainer, nestedConsumers_eq hg, block_eq hb, nameable_eq, pure_bind]

theorem bindScope_eq (hg : s.index.Consistent) (b : Binder) {chains : List Chain}
    {order : List BlockId} (hchains : ∀ c ∈ chains, c.members ⊆ s.index.ids)
    (horder : order ⊆ s.index.ids) :
    bindScope b s chains order = pure (b.bindScope s chains order) := by
  have hbound : ∀ start, chains.foldlM (bindChain s) start =
      pure (chains.foldl (Binder.bindChain s) start) := by
    intro start
    refine foldlM_eq_pure ?_
    intro front c back hsplit
    exact bindChain_eq hg _ (hchains c (by simp [hsplit]))
  rw [bindScope, hbound, pure_bind, Binder.bindScope]
  refine foldlM_eq_pure ?_
  intro front id back hsplit
  exact bindContainer_eq hg _ (horder (by simp [hsplit]))

end

/-! ### Statements and zones -/

/-- A block is written as a container or with its chain. -/
def writable (s : Scope) (order : List BlockId) (id : BlockId) : Except Stuck Unit := do
  let found ← block s.index id
  if found.isControlFlow || (s.chains order).any (·.members.contains id) then return ()
  else throw (.noChain id)

def statements (s : Scope) (order : List BlockId) : Except Stuck (List Emit.Statement) := do
  let _ ← order.mapM (writable s order)
  return Emit.statements s.index (s.chains order) order

/-- The branches of a container, of which there has to be one. -/
def branches (g : Index) (container : Block) (target : Option String) (source : Option Source) :
    Except Stuck (List Emit.Branch) := do
  let _ ← zoneChildren g ⟨container.id, .elseZone⟩
  match Emit.branches g container target source with
  | [] => throw (.noBranches container.id)
  | found => return found

/-- How many zones lie around the blocks of the scope of `outer`. -/
def depth (g : Index) : (outer : Option Place) → Except Stuck Nat
  | none => return 0
  | some place => return (← ancestors g place.container).length + 1

def zoneScope (g : Index) (outer : Option Place) (place : Place) : Except Stuck Scope := do
  if (← depth g outer) < (← depth g (some place)) then return ⟨g, ← zoneChildren g place⟩
  else throw (.notDeeper place)

/-- The name and the parameter of a block that has to be a function. -/
def signature (g : Index) (id : BlockId) : Except Stuck (String × String) := do
  match (← block g id).container with
  | some (.function name inputParam _) => return (name, inputParam)
  | _ => throw (.noFunction id)

/-- **Every block of an ordered scope that is no control-flow container has its chain.** -/
theorem statements_eq {s : Scope} {order : List BlockId} (hs : OrderedScope s order)
    (horder : order ⊆ s.index.ids) :
    statements s order = pure (Emit.statements s.index (s.chains order) order) := by
  have hwritable : ∀ id ∈ order, writable s order id = pure () := by
    intro id hid
    obtain ⟨b, hb⟩ := Index.exists_block? (horder hid)
    have hplace : b.isControlFlow || (s.chains order).any (·.members.contains id) := by
      cases hcf : b.isControlFlow with
      | true => rfl
      | false =>
        have hplain : s.index.isControlFlow id = false := by simp [Index.isControlFlow, hb, hcf]
        obtain ⟨c, hc, hmem⟩ := List.mem_flatMap.mp (hs.mem_chains_iff.mpr ⟨hid, hplain⟩)
        simpa using ⟨c, hc, hmem⟩
    rw [writable, block_eq hb, pure_bind, if_pos hplace]
  rw [statements, mapM_eq_pure hwritable, pure_bind]

section

variable {g : Index}

theorem branches_eq (hg : g.Consistent) {block : Block} (hid : block.id ∈ g.ids)
    (hcf : block.isControlFlow) (target : Option String) (source : Option Source) :
    branches g block target source = pure (Emit.branches g block target source) := by
  obtain ⟨first, rest, hcons, -⟩ := Emit.branches_eq_cons (g := g) hcf target source
  rw [branches, zoneChildren_eq hg hid, pure_bind, hcons]

theorem depth_eq (hg : g.Consistent) {outer : Option Place}
    (houter : ∀ place ∈ outer, place.container ∈ g.ids) : depth g outer = pure (g.depth outer) := by
  cases outer with
  | none => rfl
  | some place =>
    rw [depth, ancestors_eq hg (houter place rfl), pure_bind]
    rfl

theorem zoneScope_eq (hg : g.Consistent) {outer : Option Place} {place : Place}
    (houter : ∀ place ∈ outer, place.container ∈ g.ids) (hplace : place.container ∈ g.ids)
    (hdeeper : g.depth outer < g.depth (some place)) :
    zoneScope g outer place = pure (g.zoneScope place) := by
  have hinner : ∀ inner ∈ some place, inner.container ∈ g.ids := by simpa using hplace
  rw [zoneScope, depth_eq hg houter, depth_eq hg hinner, pure_bind, pure_bind, if_pos hdeeper,
    zoneChildren_eq hg hplace, pure_bind]
  rfl

end

/-! ### Emission -/

/-- The answers that stop the generation where a step cannot be taken. -/
instance : Answers (Except Stuck) where
  nesting s := nesting s
  orders g := do
    let _ ← (sorted g.topScope).run
    let _ ← (sorted g.callableScope).run
    return Snapshot.orders g
  sorted s := (sorted s).run
  chains s order := chains s order
  bindScope b s chains order := bindScope b s chains order
  statements s order := statements s order
  producers s id := producers s id
  block? g id := some <$> block g id
  stages g c := blocks g c.members
  branches g block target source := branches g block target source
  zoneScope g outer place := zoneScope g outer place
  cutOff _ := throw .endless
  signature? g id := some <$> signature g id

/-- The generation of a snapshot, which stops at the first step that cannot be taken. -/
def generate (options : GeneratorOptions) (s : Snapshot) : Except Stuck Generation := do
  let plan ← s.planIn options.suffixLength
  return plan.generation options

/-- A step of a generation that can get stuck. -/
abbrev Emission := EmitT (Except Stuck)

/-- A step that cannot get stuck. -/
def total {α : Type} (step : Emit α) : Emission α := fun p => pure (step.run p)

theorem total_pure {α : Type} (a : α) : total (pure a) = pure a := rfl

theorem total_mapM {α β : Type} {f : α → Emission β} {step : α → Emit β} {l : List α}
    (h : ∀ a ∈ l, f a = total (step a)) : l.mapM f = total (l.mapM step) := by
  induction l with
  | nil => simp [total_pure]
  | cons a l ih =>
    rw [List.mapM_cons, List.mapM_cons, h a (by simp), ih fun x hx => h x (by simp [hx])]
    rfl

/-- One step after another. -/
theorem bind_eq_total {α β : Type} {strict : Emission α} {step : Emit α}
    {strictNext : α → Emission β} {next : α → Emit β} (hstep : strict = total step)
    (hnext : ∀ p, strictNext (step.run p).1 = total (next (step.run p).1)) :
    strict >>= strictNext = total (step >>= next) := by
  funext p
  show (strict p >>= fun r => strictNext r.1 r.2) = _
  rw [hstep, total, pure_bind, hnext]
  rfl

/-- A step after an answer. -/
theorem answer_eq_total {α β : Type} {strict : Except Stuck α} {plain : Id α} {answer : α}
    {strictNext : α → Emission β} {next : α → Emit β} (hstrict : strict = pure answer)
    (hplain : plain = answer) (hnext : strictNext answer = total (next answer)) :
    liftM strict >>= strictNext =
      total (@liftM _ _ (instMonadLiftTOfMonadLift Id Id (StateT Pass Id)) α plain >>= next) := by
  rw [hstrict, liftM_pure, pure_bind, hnext, hplain]
  rfl

theorem resolve_eq {around : Emit.Surroundings} (hg : around.scope.index.Consistent)
    (id : BlockId) : Emit.resolve around id = total (Emit.resolve around id) := by
  have hget : (get : Emission Pass) = total get := rfl
  refine answer_eq_total (producers_eq hg id) rfl (bind_eq_total hget fun p => ?_)
  generalize Emit.inflow _ around id _ = found
  obtain ⟨source, _ | f⟩ := found
  · rfl
  · rfl

theorem members_subset {s : Scope} {order : List BlockId} (hs : OrderedScope s order)
    (hids : s.ids ⊆ s.index.ids) {c : Chain} (hc : c ∈ s.chains order) :
    c.members ⊆ s.index.ids := fun u hu => hids (hs.runs.inside c hc u hu).1

/-- The zones of a block are written as by steps that cannot get stuck. -/
def Agrees (strict : Emit.ZoneWriter (Except Stuck)) (zone : Emit.ZoneWriter Id) (id : BlockId) :
    Prop :=
  ∀ label view input level, strict ⟨id, label⟩ view input level =
    total (zone ⟨id, label⟩ view input level)

section

variable {strict : Emit.ZoneWriter (Except Stuck)} {zone : Emit.ZoneWriter Id}

theorem container_eq {around : Emit.Surroundings} (hg : around.scope.index.Consistent)
    {block : Block} (hid : block.id ∈ around.scope.index.ids) (hcf : block.isControlFlow)
    (hzone : Agrees strict zone block.id) (target : Option String) (source : Option Source) :
    Emit.container strict around block target source =
      total (Emit.container zone around block target source) := by
  refine answer_eq_total (branches_eq hg hid hcf target source) rfl ?_
  refine bind_eq_total (total_mapM fun b _ => ?_) fun _ => rfl
  exact bind_eq_total (hzone _ _ _ _) fun _ => rfl

theorem statement_eq {s : Scope} (hg : s.index.Consistent) {order : List BlockId}
    (hs : OrderedScope s order) (hids : s.ids ⊆ s.index.ids)
    (hzone : ∀ id ∈ order, s.index.isControlFlow id → Agrees strict zone id)
    {around : Emit.Surroundings} (haround : around.scope = s) {st : Emit.Statement}
    (hst : st ∈ Emit.statements s.index (s.chains order) order) :
    Emit.statement strict around st = total (Emit.statement zone around st) := by
  subst haround
  cases st with
  | container id =>
    obtain ⟨hid, hcf⟩ := hs.container_mem_iff.mp hst
    obtain ⟨block, hb, hflow⟩ := Index.isControlFlow_iff.mp hcf
    obtain rfl := (Index.mem_of_block? hb).2
    have hanswer : Answers.block? (m := Except Stuck) around.scope.index block.id =
        pure (some block) := congrArg (some <$> ·) (block_eq hb)
    refine bind_eq_total (resolve_eq hg block.id) fun p => answer_eq_total hanswer hb ?_
    exact container_eq hg (Index.mem_ids_of_block? hb) hflow (hzone _ hid hcf) _ _
  | chain c =>
    have hmembers := members_subset hs hids (hs.chain_mem_iff.mp hst)
    refine bind_eq_total (resolve_eq hg c.head) fun p => ?_
    exact answer_eq_total (blocks_eq hmembers) rfl rfl

theorem enter_eq {s : Scope} (hg : s.index.Consistent) {order : List BlockId}
    (hs : OrderedScope s order) (hids : s.ids ⊆ s.index.ids) (inherited : View)
    (input : Option Source) (level : Int) :
    Emit.enter s order inherited input level =
      total (Emit.enter s order inherited input level) := by
  have hget : (get : Emission Pass) = total get := rfl
  refine bind_eq_total hget fun p => answer_eq_total (chains_eq hg hs hids) rfl ?_
  exact answer_eq_total (bindScope_eq hg _ (fun c hc => members_subset hs hids hc)
    (List.Subset.trans hs.perm.subset hids)) rfl rfl

/-- **Writing a scope does not get stuck** where writing the zones of its containers does not. -/
theorem sortedScope_eq {s : Scope} (hg : s.index.Consistent) {order : List BlockId}
    (hs : OrderedScope s order) (hids : s.ids ⊆ s.index.ids)
    (hzone : ∀ id ∈ order, s.index.isControlFlow id → Agrees strict zone id) (inherited : View)
    (input : Option Source) (level : Int) (separate : Bool) :
    Emit.sortedScope strict s order inherited input level separate =
      total (Emit.sortedScope zone s order inherited input level separate) := by
  refine bind_eq_total (enter_eq hg hs hids inherited input level) fun p => ?_
  refine answer_eq_total (statements_eq hs (List.Subset.trans hs.perm.subset hids)) rfl ?_
  refine bind_eq_total (total_mapM fun st hst => ?_) fun _ => rfl
  exact bind_eq_total (statement_eq hg hs hids hzone rfl hst) fun _ => rfl

end

section

variable {g : Index}

/-- **Writing a zone does not get stuck.**  The induction is on the levels left, which reach down
to the deepest block, and each zone lies one level further in than the scope of its container. -/
theorem zone_eq (hg : g.Consistent) {depth : Nat} {outer : Option Place} {place : Place}
    (houter : ∀ place ∈ outer, place.container ∈ g.ids) (hplace : place.container ∈ g.ids)
    (hdeeper : g.depth outer < g.depth (some place))
    (hdepth : g.blocks.length < depth + g.depth (some place)) (inherited : View)
    (input : Option Source) (level : Int) :
    Emit.zone g depth outer place inherited input level =
      total (Emit.zone g depth outer place inherited input level) := by
  induction depth generalizing outer place inherited input level with
  | zero =>
    have : g.depth (some place) ≤ g.blocks.length := hg.depth_zone_le hplace place.zone
    omega
  | succ depth ih =>
    refine answer_eq_total (zoneScope_eq hg houter hplace hdeeper) rfl ?_
    split
    case isTrue => rfl
    case isFalse =>
      refine answer_eq_total (sorted_eq (s := g.zoneScope place) hg) rfl ?_
      cases hsorted : (g.zoneScope place).sorted with
      | error cycle => rfl
      | ok order =>
        have hs := hg.orderedScope (P := some place) hsorted
        refine sortedScope_eq (s := g.zoneScope place) hg hs (hg.scopeAt_subset (some place)) ?_
          inherited input level false
        intro id hid _ label view input level
        obtain ⟨hmem, hparent⟩ := hg.mem_scopeAt.mp (hs.perm.subset hid)
        have hinner : g.depth (some ⟨id, label⟩) = g.depth (some place) + 1 := by
          rw [hg.depth_zone, hparent]
        exact ih (by simpa using hplace) hmem (by omega) (by omega) view input level

/-- Nor does writing a zone from a scope that lies in no zone. -/
theorem outermost_zone_eq (hg : g.Consistent) {id : BlockId} (hid : id ∈ g.ids) :
    Agrees (Emit.zone g g.blocks.length none) (Emit.zone g g.blocks.length none) id := by
  intro label view input level
  have hdepth : g.depth none < g.depth (some ⟨id, label⟩) := Nat.succ_pos _
  exact zone_eq hg (by simp) hid hdepth (by omega) view input level

theorem definition_eq (hg : g.Consistent) {id : BlockId} (hid : g.isCallable id) :
    Emit.definition g id = total (Emit.definition g id) := by
  obtain ⟨b, hb, hcall⟩ := Index.isCallable_iff.mp hid
  obtain ⟨name, inputParam, body, hc⟩ := Block.exists_function_of_isCallable hcall
  have hstrict : Answers.signature? (m := Except Stuck) g id = pure (some (name, inputParam)) := by
    simp [Answers.signature?, signature, block_eq hb, hc]
  have hplain : Answers.signature? (m := Id) g id = some (name, inputParam) := by
    simp [Answers.signature?, hb, hc]
  have hzone := outermost_zone_eq hg (Index.mem_ids_of_block? hb)
  refine answer_eq_total hstrict hplain ?_
  dsimp only
  split
  · exact bind_eq_total (hzone .body {} none 1) fun _ => rfl
  · exact bind_eq_total (hzone .body {} _ 2) fun _ => rfl

theorem definitions_eq (hg : g.Consistent) {order : List BlockId}
    (horder : ∀ id ∈ order, g.isCallable id) :
    Snapshot.definitions g order = total (Snapshot.definitions g order) := by
  refine bind_eq_total (total_mapM fun id hid => ?_) fun _ => rfl
  exact bind_eq_total (definition_eq hg (horder id hid)) fun _ => rfl

theorem entries_eq {functions main : List BlockId} (h : g.Ordering functions main) :
    Snapshot.entries g functions main = total (Snapshot.entries g functions main) := by
  have hg := h.consistent
  have hs := hg.orderedScope h.top
  have hscope : Emit.scope g.topScope main {} none 0 true =
      total (Emit.scope g.topScope main {} none 0 true) := by
    refine sortedScope_eq (s := g.topScope) hg hs (hg.scopeAt_subset none) ?_ {} none 0 true
    intro id hid _
    exact outermost_zone_eq hg (hg.scopeAt_subset none (hs.perm.subset hid))
  refine bind_eq_total (definitions_eq hg fun id hid => (h.mem_functions id).mp hid) fun p => ?_
  show (if main.isEmpty then _ else _) = total (if _ then _ else _)
  split
  case isTrue => rfl
  case isFalse => exact bind_eq_total hscope fun _ => rfl

theorem orders_eq (hg : g.Consistent) :
    Answers.orders (m := Except Stuck) g = pure (Snapshot.orders g) := by
  have htop : (sorted g.topScope).run = pure g.topScope.sorted := sorted_eq hg
  have hcallable : (sorted g.callableScope).run = pure g.callableScope.sorted := sorted_eq hg
  simp only [Answers.orders, htop, hcallable, pure_bind]

theorem planOf_eq (hg : g.Consistent) (suffixLength : Int) (found : List Finding) :
    (Snapshot.planOf suffixLength g found : Except Stuck Plan) =
      pure (Id.run (Snapshot.planOf suffixLength g found)) := by
  rw [Snapshot.planOf, orders_eq hg, pure_bind]
  cases ho : Snapshot.orders g with
  | error cycle =>
    simp only [Snapshot.planOf, Answers.orders, ho]
    rfl
  | ok found =>
    obtain ⟨functions, main⟩ := found
    simp only [Snapshot.planOf, Answers.orders, ho, entries_eq (hg.ordering ho)]
    rfl

end

theorem plan_eq {s : Snapshot} (hs : s.Valid) (suffixLength : Int) :
    (s.planIn suffixLength : Except Stuck Plan) = pure (s.plan suffixLength) := by
  show nesting s >>= _ = _
  rw [nesting_eq, pure_bind]
  exact planOf_eq hs.consistent suffixLength s.findings

end Strict

/-- **The generation of a valid snapshot never gets stuck**, whatever the options: every block that
is looked up is there, every cycle is found on the path, every control-flow container has its
branches, every other block its chain, each zone lies deeper than the scope it is entered from,
and no walk, chain or search for a name goes on past its bound.  What the strict generation gives
is the generation. -/
theorem generate_never_stuck {s : Snapshot} (hs : s.Valid) (options : GeneratorOptions) :
    Strict.generate options s = .ok (s.generate options) := by
  rw [Strict.generate, Strict.plan_eq hs, pure_bind]
  rfl

/-- Containers that list each other, themselves, a block that is not there, and a block of another
zone; connections from nowhere, into their own block, and twice; a zone with a cycle; and two blocks
that ask for one name. -/
def knotted : Snapshot where
  blocks := [
    { id := "choice", container := some (.ifElse "" ["loop", "ghost", "choice"] ["loop"]) },
    { id := "loop", container := some (.forEach ["choice", "left", "right", "left"]) },
    { id := "left", command := "Sort-Object", outputVariable := "rows" },
    { id := "right", command := "Select-Object" },
    { id := "work", container := some (.function "" "" ["work", "first", "second", "join"]) },
    { id := "first", command := "Get-Item", outputVariable := "rows" },
    { id := "second", command := "Get-Date", outputVariable := "ROWS" },
    { id := "join", command := "Join-Rows", inputs := ["A", "B", "C", "D"] }]
  connections := [
    { source := "left", target := "right" },
    { source := "right", target := "left" },
    { source := "ghost", target := "left" },
    { source := "choice", target := "choice" },
    { source := "first", target := "join", inlet := "A" },
    { source := "first", target := "join", inlet := "A" },
    { source := "first", target := "join", inlet := "B" },
    { source := "second", target := "join", inlet := "C" },
    { source := "second", target := "join", inlet := "D" }]

theorem generate_never_stuck_knotted :
    (knotted.generate {}).findings.map Finding.code =
        [.danglingConnection, .selfConnection, .duplicateConnection, .danglingZoneChild,
          .nestingCycle, .duplicateZoneChild, .nestingCycle, .nestingCycle, .severalProducers,
          .cycle] ∧
      (knotted.generate {}).bindings = [⟨"first", "Rows"⟩, ⟨"second", "ROWS_2"⟩] ∧
      Strict.generate {} knotted = .ok (knotted.generate {}) := by
  have hvalid : knotted.Valid := by constructor <;> decide
  exact ⟨by decide +kernel, by decide +kernel, generate_never_stuck hvalid {}⟩

end BlockScript
