import BlockScript.Proofs.GivenNames
import BlockScript.Proofs.Layout

/-!
# Emission follows the layout

Emission gives names scope by scope while it writes.  The scopes are written in the order of
`Index.scopesIn`, each once, and when a scope is written the names of the scopes around it stand
already and do not change any more.  So a statement sees what it would see in the table of the
whole generation, and emission writes the layout for that table.

* `Emit.Writes`: a step writes a part of the layout and gives the names of its scopes.
* `Emit.writes_zone`: **a zone is written as its layout says**, by induction on the levels left.
* `Snapshot.plan_of_orders`: **the same of a whole generation.**
-/

namespace BlockScript

/-- The names that a pass has given. -/
def Pass.names (p : Pass) : Binder × Table := (p.binder, p.table)

/-- The view shows the names of these scopes and no others. -/
structure View.Shows (g : Index) (t : Table) (scopes : List (Option Place)) (now : Table)
    (view : View) : Prop where
  within : view.Within now
  lookup : ∀ id, now.lookup view id = if g.parent? id ∈ scopes then t.nameOf id else none

theorem View.Shows.later {g : Index} {t now later : Table} {scopes : List (Option Place)}
    {view : View} (h : view.Shows g t scopes now) (hlater : now.entries <+: later.entries) :
    view.Shows g t scopes later :=
  ⟨Table.within_of_extends h.within hlater,
    fun id => (Table.lookup_of_extends h.within hlater id).trans (h.lookup id)⟩

namespace Emit

/-! ### Steps and their outcome -/

/-- A plain answer is there at once. -/
@[simp] theorem lift_bind {α β : Type} (a : Id α) (f : α → Emit β) :
    @liftM _ _ (instMonadLiftTOfMonadLift Id Id (StateT Pass Id)) α a >>= f = f a := rfl

/-- What a step gives, and the pass after it. -/
def outcome {α : Type} (m : Emit α) (p : Pass) : α × Pass := m.run p

@[simp] theorem outcome_pure {α : Type} (a : α) (p : Pass) :
    outcome (pure a : Emit α) p = (a, p) := rfl

@[simp] theorem outcome_bind {α β : Type} (m : Emit α) (f : α → Emit β) (p : Pass) :
    outcome (m >>= f) p = outcome (f (outcome m p).1) (outcome m p).2 := rfl

@[simp] theorem outcome_map {α β : Type} (f : α → β) (m : Emit α) (p : Pass) :
    outcome (f <$> m) p = (f (outcome m p).1, (outcome m p).2) := rfl

@[simp] theorem outcome_note (event : Event) (p : Pass) :
    outcome (note event) p = ((), p.note event) := rfl

@[simp] theorem outcome_get (p : Pass) : outcome (get : Emit Pass) p = (p, p) := rfl

@[simp] theorem outcome_set (p q : Pass) : outcome (set q : Emit PUnit) p = (⟨⟩, q) := rfl

end Emit

@[simp] theorem Pass.names_note (p : Pass) (event : Event) : (p.note event).names = p.names := rfl

@[simp] theorem Pass.findings_note (p : Pass) (event : Event) :
    (p.note event).findings = p.findings ++ event.finding?.toList := by
  cases h : event.finding? <;> simp [Pass.note, Pass.findings, h]

namespace Emit

theorem outcome_resolve (around : Surroundings) (id : BlockId) (p : Pass) :
    let piped := inflow p.table around id (around.scope.producers id)
    (outcome (resolve around id) p).1 = piped.1 ∧
      (outcome (resolve around id) p).2.names = p.names ∧
      (outcome (resolve around id) p).2.findings = p.findings ++ piped.2.toList := by
  rcases h : inflow p.table around id (around.scope.producers id) with ⟨source, _ | f⟩
  · simp [resolve, Answers.producers, h]
  · simp [resolve, Answers.producers, h, Event.finding?]

/-! ### Parts of the layout -/

/-- Wherever the names stand at `start` or later, the step writes the part and gives the names of
the scopes. -/
def Writes (g : Index) (b : Binder) (all start : List (Option Place)) (m : Emit (List Entry))
    (scopes : List (Option Place)) (part : Layout) : Prop :=
  ∀ done p, start <+: done → done ++ scopes <+: all → p.names = g.namesAfter b done →
    (outcome m p).1 = part.entries ∧
      (outcome m p).2.names = g.namesAfter b (done ++ scopes) ∧
      (outcome m p).2.findings = p.findings ++ part.findings

section

variable {g : Index} {b : Binder} {all start : List (Option Place)}

theorem writes_pure (entries : List Entry) :
    Writes g b all start (pure entries) [] { entries } := by
  intro done p _ _ hp
  simp [hp]

/-- The result of a step may be put between other entries. -/
theorem Writes.map {m : Emit (List Entry)} {scopes : List (Option Place)} {part : Layout}
    (h : Writes g b all start m scopes part) (f : List Entry → List Entry) :
    Writes g b all start (m >>= fun entries => pure (f entries)) scopes
      { part with entries := f part.entries } := by
  intro done p hstart hdone hp
  obtain ⟨hvalue, hnames, hfindings⟩ := h done p hstart hdone hp
  simp [hvalue, hnames, hfindings]

/-- Steps one after the other write their parts one after the other. -/
theorem writes_mapM {α : Type} {l : List α} {f : α → Emit (List Entry)}
    {scopes : α → List (Option Place)} {part : α → Layout}
    (h : ∀ a ∈ l, Writes g b all start (f a) (scopes a) (part a)) :
    Writes g b all start (l.mapM f >>= fun parts => pure parts.flatten) (l.flatMap scopes)
      (Layout.join (l.map part)) := by
  intro done p hstart hdone hp
  simp only [outcome_bind, outcome_pure]
  induction l generalizing done p with
  | nil => simp [hp]
  | cons a l ih =>
    rw [List.flatMap_cons, ← List.append_assoc] at hdone
    obtain ⟨hvalue, hnames, hfindings⟩ :=
      h a (by simp) done p hstart ((List.prefix_append _ _).trans hdone) hp
    obtain ⟨hvalue', hnames', hfindings'⟩ := ih (fun x hx => h x (by simp [hx])) (done ++ scopes a)
      (outcome (f a) p).2 (hstart.trans (List.prefix_append _ _)) hdone hnames
    rw [List.mapM_cons]
    simp only [outcome_bind, outcome_pure, List.flatten_cons, List.map_cons, List.flatMap_cons,
      Layout.entries_join, Layout.findings_join]
    refine ⟨?_, ?_, ?_⟩
    · rw [hvalue, hvalue', Layout.entries_join]
    · rw [hnames', List.append_assoc]
    · rw [hfindings', hfindings, List.append_assoc, Layout.findings_join]

end

/-! ### What a statement sees -/

/-- The surroundings are those of the scope `P`: they show the names that the table `t` has for
the blocks of the scope and of the scopes around it. -/
structure Surroundings.Sees (around : Surroundings) (g : Index) (t : Table) (P : Option Place)
    (now : Table) : Prop where
  scope : around.scope = g.scopeAt P
  bound : ∀ id, Binding.nameIn around.bound id = if g.parent? id = P then t.nameOf id else none
  shows : around.view.Shows g t (g.scopesFrom P) now

section

variable {g : Index} {b : Binder} {all start : List (Option Place)} {P : Option Place}

theorem Surroundings.Sees.later {around : Surroundings} {t now later : Table}
    (h : around.Sees g t P now) (hlater : now.entries <+: later.entries) :
    around.Sees g t P later := ⟨h.scope, h.bound, h.shows.later hlater⟩

theorem visibleName?_eq {around : Surroundings} {now : Table}
    (h : around.Sees g (g.namesAfter b all).2 P now) (id : BlockId) :
    visibleName? now around id = g.readName? (g.namesAfter b all).2 P id := by
  have hfull : ∀ o : Option String, (o = (g.namesAfter b all).2.nameOf id ∨ o = none) →
      o.filter (· ≠ "") = o := by
    rintro o (rfl | rfl)
    · cases hname : (g.namesAfter b all).2.nameOf id with
      | none => rfl
      | some name => simp [Index.nameOf_namesAfter_ne_empty hname]
    · rfl
  rw [visibleName?, h.bound, h.shows.lookup, Index.readName?]
  by_cases hP : g.parent? id = P
  · have hself : P ∈ g.scopesFrom P := Index.self_mem_scopesFrom P
    rw [if_pos hP, hP, if_pos hself, hfull _ (Or.inl rfl), Option.or_self]
  · rw [if_neg hP]
    split
    · rw [hfull _ (Or.inl rfl)]
      rfl
    · rfl

/-- **A statement sees what it would see in the table of the whole generation.** -/
theorem inflow_eq {around : Surroundings} {now : Table}
    (h : around.Sees g (g.namesAfter b all).2 P now) (id : BlockId) :
    inflow now around id (around.scope.producers id) =
      Layout.inflow g (g.namesAfter b all).2 P around.input id := by
  have hvisible : visibleName? now around = g.readName? (g.namesAfter b all).2 P :=
    funext fun producer => visibleName?_eq h producer
  simp only [inflow, h.scope, hvisible]
  rfl

theorem enter_findings (s : Scope) (order : List BlockId) (inherited : View)
    (input : Option Source) (level : Int) (p : Pass) :
    (outcome (enter s order inherited input level) p).2.findings = p.findings := by
  simp only [enter, outcome_bind, outcome_get, outcome_set, outcome_note, outcome_pure,
    Pass.findings_note, Event.finding?, Option.toList_none, List.append_nil]
  rfl

/-- Entering a scope: the names of the scopes around it can be seen, and now its own too. -/
theorem enter_sees (hg : g.Consistent) (hall : all.Nodup) {order : List BlockId}
    (hsorted : (g.scopeAt P).sorted = .ok order) {done : List (Option Place)} {p : Pass}
    (hdone : done ++ [P] <+: all) (hp : p.names = g.namesAfter b done) {inherited : View}
    (hshows : inherited.Shows g (g.namesAfter b all).2 (g.scopesFrom P).tail p.table)
    (input : Option Source) (level : Int) :
    (outcome (enter (g.scopeAt P) order inherited input level) p).1.Sees g (g.namesAfter b all).2 P
        (outcome (enter (g.scopeAt P) order inherited input level) p).2.table ∧
      (outcome (enter (g.scopeAt P) order inherited input level) p).2.names =
        g.namesAfter b (done ++ [P]) := by
  have hbinder : p.binder = (g.namesAfter b done).1 := congrArg Prod.fst hp
  have htable : p.table = (g.namesAfter b done).2 := congrArg Prod.snd hp
  let bound := (p.binder.bindScope (g.scopeAt P) ((g.scopeAt P).chains order) order).1
  obtain ⟨rest, hrest⟩ := hdone
  have hnodup : (done ++ [P] ++ rest).Nodup := hrest ▸ hall
  have hPdone : P ∉ done := fun hmem =>
    (List.nodup_append.mp (List.nodup_append.mp hnodup).1).2.2 P hmem P (by simp) rfl
  have hPrest : P ∉ rest := fun hmem => (List.nodup_append.mp hnodup).2.2 P (by simp) P hmem rfl
  -- the names of the scope are those it has in the end
  have hown : ∀ id, g.parent? id = P →
      p.table.nameOf id = none ∧ Binding.nameIn bound id = (g.namesAfter b all).2.nameOf id := by
    rintro id rfl
    have hfresh : (g.namesAfter b done).2.nameOf id = none :=
      hg.nameOf_namesAfter_eq_none b hPdone
    refine ⟨htable ▸ hfresh, ?_⟩
    rw [← hrest, hg.nameOf_namesAfter_append b _ hPrest, Index.namesAfter_concat,
      Index.nameScope_of_sorted hsorted, Table.nameOf_foldl_append, hfresh, Option.none_or,
      ← hbinder]
  have hother : ∀ id, g.parent? id ≠ P → Binding.nameIn bound id = none :=
    fun id hne => hg.nameIn_eq_none hsorted _ hne
  have hnames : (outcome (enter (g.scopeAt P) order inherited input level) p).2.names =
      g.namesAfter b (done ++ [P]) := by
    rw [Index.namesAfter_concat, Index.nameScope_of_sorted hsorted, ← hbinder, ← htable]
    rfl
  refine ⟨⟨rfl, fun id => ?_, Table.within_publish hshows.within bound, fun id => ?_⟩, hnames⟩
  · show Binding.nameIn bound id = _
    by_cases hP : g.parent? id = P
    · rw [if_pos hP, (hown id hP).2]
    · rw [if_neg hP, hother id hP]
  · show (p.table.publish bound inherited).1.lookup (p.table.publish bound inherited).2 id = _
    rw [Table.lookup_publish hshows.within, Index.scopesFrom_eq_cons]
    simp only [List.mem_cons]
    by_cases hP : g.parent? id = P
    · rw [(hown id hP).1, if_pos (Or.inl hP), (hown id hP).2]
      rfl
    · simp only [hP, false_or]
      rw [← hshows.lookup, hother id hP]
      cases hname : p.table.nameOf id with
      | none => rw [Table.lookup_eq_none_of_nameOf hname]; rfl
      | some name => rfl

/-! ### Statements, scopes and zones -/

variable {zone : ZoneWriter Id} {layout : Place → Option Source → Int → Layout}
  {inner : Place → List (Option Place)}

/-- How the zones in a scope `P` are written when its names can be seen. -/
def WritesZones (g : Index) (b : Binder) (all : List (Option Place)) (P : Option Place)
    (zone : ZoneWriter Id) (layout : Place → Option Source → Int → Layout)
    (inner : Place → List (Option Place)) : Prop :=
  ∀ id ∈ (g.scopeAt P).ids, g.isControlFlow id → ∀ label start view input level,
    view.Shows g (g.namesAfter b all).2 (g.scopesFrom P) (g.namesAfter b start).2 →
    Writes g b all start (zone ⟨id, label⟩ view input level) (inner ⟨id, label⟩)
      (layout ⟨id, label⟩ input level)

theorem writes_container (hzones : WritesZones g b all P zone layout inner)
    {around : Surroundings}
    (hsees : around.Sees g (g.namesAfter b all).2 P (g.namesAfter b start).2) {block : Block}
    (hid : block.id ∈ (g.scopeAt P).ids) (hcf : g.isControlFlow block.id) (target : Option String)
    (source : Option Source) :
    Writes g b all start (container zone around block target source)
      (((g.branchZones block).map (⟨block.id, ·⟩)).flatMap inner)
      (Layout.join ((branches g block target source).map
        (Layout.branch layout around.level block.id))) := by
  rw [← Index.map_zone_branches block target source, List.map_map, List.flatMap_map, container,
    hsees.scope, Index.scopeAt_index]
  refine writes_mapM fun branch _ => ?_
  exact (hzones block.id hid hcf branch.zone start around.view branch.input (around.level + 1)
    hsees.shows).map fun entries =>
      .opening around.level block.id branch.target branch.source branch.what :: entries ++
        [.closing around.level block.id]

theorem writes_statement (hg : g.Consistent) (hzones : WritesZones g b all P zone layout inner)
    {around : Surroundings}
    (hsees : around.Sees g (g.namesAfter b all).2 P (g.namesAfter b start).2)
    {order : List BlockId} (hs : OrderedScope (g.scopeAt P) order) {st : Statement}
    (hst : st ∈ (g.scopeAt P).statements order) :
    Writes g b all start (statement zone around st) ((g.statementZones st).flatMap inner)
      (Layout.statement g (g.namesAfter b all).2 layout P around.input around.level st) := by
  have hindex : around.scope.index = g := by rw [hsees.scope, Index.scopeAt_index]
  intro done p hstart hdone hp
  have hlater : (g.namesAfter b start).2.entries <+: p.table.entries := by
    rw [show p.table = (g.namesAfter b done).2 from congrArg Prod.snd hp]
    exact Index.extends_namesAfter b hstart
  have hinflow := inflow_eq (hsees.later hlater)
  cases st with
  | container id =>
    obtain ⟨hmem, hcf⟩ := hs.container_mem_iff.mp hst
    rw [Index.scopeAt_index] at hcf
    obtain ⟨block, hblock, -⟩ := Index.isControlFlow_iff.mp hcf
    obtain ⟨-, rfl⟩ := Index.mem_of_block? hblock
    have hid : block.id ∈ (g.scopeAt P).ids := hs.perm.subset hmem
    have htarget : Binding.nameIn around.bound block.id =
        (g.namesAfter b all).2.nameOf block.id := by
      rw [hsees.bound, if_pos (hg.mem_scopeAt.mp hid).2]
    obtain ⟨hsource, hnames, hfindings⟩ := outcome_resolve around block.id p
    rw [Index.statementZones, hblock] at hdone ⊢
    obtain ⟨hvalue', hnames', hfindings'⟩ := writes_container hzones hsees hid hcf
      ((g.namesAfter b all).2.nameOf block.id)
      (inflow p.table around block.id (around.scope.producers block.id)).1 done
      (outcome (resolve around block.id) p).2 hstart hdone (hnames.trans hp)
    simp only [statement, lift_bind, Answers.block?, outcome_bind, hindex, hblock, htarget, hsource]
    simp only [Layout.statement, Layout.body, Statement.lead, hblock, ← hinflow]
    exact ⟨hvalue', hnames', by rw [hfindings', hfindings, List.append_assoc]⟩
  | chain c =>
    have hc := hs.chain_mem_iff.mp hst
    have hterminal := (hs.runs.inside c hc c.terminal c.terminal_mem).1
    have htarget : Binding.nameIn around.bound c.terminal =
        (g.namesAfter b all).2.nameOf c.terminal := by
      rw [hsees.bound, if_pos (hg.mem_scopeAt.mp hterminal).2]
    obtain ⟨hsource, hnames, hfindings⟩ := outcome_resolve around c.head p
    simp only [statement, lift_bind, Answers.stages, outcome_bind, outcome_pure, hindex, htarget,
      hsource]
    simp only [Layout.statement, Layout.body, Statement.lead, ← hinflow, Index.statementZones,
      List.flatMap_nil, List.append_nil]
    exact ⟨trivial, hnames.trans hp, hfindings⟩

theorem writes_sortedScope (hg : g.Consistent) (hall : all.Nodup)
    (hzones : WritesZones g b all P zone layout inner) {order : List BlockId}
    (hsorted : (g.scopeAt P).sorted = .ok order) {inherited : View}
    (hshows : inherited.Shows g (g.namesAfter b all).2 (g.scopesFrom P).tail
      (g.namesAfter b start).2) (input : Option Source) (level : Int) (separate : Bool) :
    Writes g b all start (sortedScope zone (g.scopeAt P) order inherited input level separate)
      (P :: (g.zonesOf P order).flatMap inner)
      (Layout.scope g (g.namesAfter b all).2 layout P order input level separate) := by
  intro done p hstart hdone hp
  have hs := hg.orderedScope hsorted
  have htable : p.table = (g.namesAfter b done).2 := congrArg Prod.snd hp
  rw [List.append_cons] at hdone ⊢
  have hdone' : done ++ [P] <+: all := (List.prefix_append _ _).trans hdone
  obtain ⟨hsees, hnames⟩ := enter_sees hg hall hsorted hdone' hp
    (htable ▸ hshows.later (Index.extends_namesAfter b hstart)) input level
  have hsees' := hsees
  rw [show (outcome (enter (g.scopeAt P) order inherited input level) p).2.table =
    (g.namesAfter b (done ++ [P])).2 from congrArg Prod.snd hnames] at hsees'
  have hparts := writes_mapM fun st hst => (writes_statement hg hzones hsees' hs hst).map
    fun entries => if separate then entries ++ [.blank] else entries
  rw [← List.flatMap_assoc] at hparts
  obtain ⟨hvalue', hnames', hfindings'⟩ := hparts (done ++ [P]) _ (List.prefix_refl _) hdone hnames
  rw [enter_findings] at hfindings'
  rw [sortedScope, outcome_bind, Layout.scope]
  exact ⟨hvalue', hnames', hfindings'⟩

/-- **A zone is written as its layout says.** -/
theorem writes_zone (hg : g.Consistent) (hall : all.Nodup) (depth : Nat) (outer : Option Place)
    (place : Place) {inherited : View} (input : Option Source) (level : Int)
    (hshows : inherited.Shows g (g.namesAfter b all).2 (g.scopesFrom (some place)).tail
      (g.namesAfter b start).2) :
    Writes g b all start (Emit.zone g depth outer place inherited input level)
      (g.scopesIn depth place)
      (Layout.zone g (g.namesAfter b all).2 depth place input level) := by
  induction depth generalizing outer place inherited input level start with
  | zero => exact writes_pure []
  | succ depth ih =>
    rw [Emit.zone, Index.scopesIn, Layout.zone]
    simp only [lift_bind, Answers.zoneScope, Answers.sorted]
    by_cases hempty : (g.zoneScope place).ids.isEmpty
    · simp only [hempty, if_true]
      exact writes_pure _
    · simp only [hempty, Bool.false_eq_true, if_false]
      cases hsorted : (g.zoneScope place).sorted with
      | error cycle =>
        intro done p _ _ hp
        simp [hp, Event.finding?]
      | ok order =>
        refine writes_sortedScope (P := some place) hg hall ?_ hsorted hshows input level false
        intro id hid hcf label start view input level hview
        refine ih (some place) ⟨id, label⟩ input level ?_
        rw [hg.scopesFrom_zone hid hcf label]
        exact hview

/-! ### Functions and the script -/

theorem shows_empty (t now : Table) : View.Shows g t [] now {} :=
  ⟨View.within_empty now, fun id => by simp [Table.lookup_empty]⟩

theorem writes_definition (hg : g.Consistent) (hall : all.Nodup) {id : BlockId}
    (hcall : g.isCallable id) :
    Writes g b all start (definition g id) (g.scopesIn g.blocks.length ⟨id, .body⟩)
      (Layout.definition g (g.namesAfter b all).2 id) := by
  obtain ⟨block, hblock, hfun⟩ := Index.isCallable_iff.mp hcall
  obtain ⟨name, inputParam, body, hc⟩ := Block.exists_function_of_isCallable hfun
  have hzone : ∀ input level, Writes g b all start
      (Emit.zone g g.blocks.length none ⟨id, .body⟩ {} input level)
      (g.scopesIn g.blocks.length ⟨id, .body⟩)
      (Layout.zone g (g.namesAfter b all).2 g.blocks.length ⟨id, .body⟩ input level) := by
    intro input level
    refine writes_zone hg hall _ none ⟨id, .body⟩ input level ?_
    rw [Index.scopesFrom_of_callable hcall]
    exact shows_empty _ _
  simp only [definition, lift_bind, Answers.signature?, Layout.definition, Layout.functionBody,
    hblock, hc, Option.bind_some]
  by_cases hblank : Text.isBlankText inputParam
  · simp only [hblank, if_true]
    exact (hzone none 1).map fun entries => .opening 0 id none none
      (.function (Container.resolveFunctionName name)) :: entries ++ [.closing 0 id]
  · simp only [hblank, Bool.false_eq_true, if_false]
    let parameter := Naming.identifier (Text.trim inputParam)
    exact ((hzone (some (.parameter parameter)) 2).map fun entries => .parameters 1 parameter ::
      .opening 1 id none none .process :: entries ++ [.closing 1 id]).map fun entries =>
        .opening 0 id none none (.function (Container.resolveFunctionName name)) :: entries ++
          [.closing 0 id]

theorem writes_definitions (hg : g.Consistent) (hall : all.Nodup) {functions : List BlockId}
    (hcall : ∀ id ∈ functions, g.isCallable id) :
    Writes g b all start (Snapshot.definitions g functions)
      (functions.flatMap fun id => g.scopesIn g.blocks.length ⟨id, .body⟩)
      (Layout.definitions g (g.namesAfter b all).2 functions) :=
  writes_mapM fun id hid => (writes_definition hg hall (hcall id hid)).map
    fun entries => entries ++ [.blank]

theorem writes_execution (hg : g.Consistent) (hall : all.Nodup) {main : List BlockId}
    (htop : (g.scopeAt none).sorted = .ok main) :
    Writes g b all start
      (if main.isEmpty then pure [] else Emit.scope g.topScope main {} none 0 true)
      (if main.isEmpty then []
        else none :: (g.zonesOf none main).flatMap (g.scopesIn g.blocks.length))
      (Layout.execution g (g.namesAfter b all).2 main) := by
  rw [Layout.execution]
  by_cases hempty : main.isEmpty
  · simp only [hempty, if_true]
    exact writes_pure []
  · simp only [hempty, Bool.false_eq_true, if_false]
    refine writes_sortedScope (P := none) hg hall ?_ htop (shows_empty _ _) none 0 true
    intro id hid hcf label start view input level hview
    refine writes_zone hg hall _ none ⟨id, label⟩ input level ?_
    rw [hg.scopesFrom_zone hid hcf label]
    exact hview

end

end Emit

/-- The table has the names of a script whose functions and top-level blocks are in order: a block
has a name if and only if its scope is written and its result is read. -/
structure Index.Named (g : Index) (t : Table) (functions main : List BlockId) : Prop
    extends g.Ordering functions main where
  isSome_nameOf : ∀ id, (t.nameOf id).isSome ↔ id ∈ g.ids ∧
    g.parent? id ∈ g.written functions main ∧ (g.scopeAt (g.parent? id)).isRead id

theorem Index.Ordering.named {g : Index} {functions main : List BlockId}
    (h : g.Ordering functions main) (b : Binder) :
    g.Named (g.namesAfter b (g.written functions main)).2 functions main := by
  refine ⟨h, fun id => ?_⟩
  rw [h.consistent.isSome_nameOf_namesAfter]
  constructor
  · rintro ⟨hid, hmem, -, hread⟩
    exact ⟨hid, hmem, hread⟩
  · rintro ⟨hid, hmem, hread⟩
    have hne : (g.scopeAt (g.parent? id)).ids ≠ [] :=
      List.ne_nil_of_mem (h.consistent.mem_scopeAt.mpr ⟨hid, rfl⟩)
    exact ⟨hid, hmem, (h.mem_written_iff hne).mp hmem _ (Index.self_mem_scopesFrom _), hread⟩

namespace Snapshot

open Emit

theorem outcome_entries (s : Snapshot) {functions main : List BlockId}
    (h : s.index.Ordering functions main) {b : Binder} {p : Pass} (hp : p.names = (b, {})) :
    (outcome (entries s.index functions main) p).1 = (Layout.script s.index
        (s.index.namesAfter b (s.index.written functions main)).2 functions main).entries ∧
      (outcome (entries s.index functions main) p).2.names =
        s.index.namesAfter b (s.index.written functions main) ∧
      (outcome (entries s.index functions main) p).2.findings = p.findings ++ (Layout.script s.index
        (s.index.namesAfter b (s.index.written functions main)).2 functions main).findings := by
  obtain ⟨hvalue, hnames, hfindings⟩ := writes_definitions h.consistent
    h.nodup_written (fun id hid => (h.mem_functions id).mp hid) [] p (List.prefix_refl _)
    (List.prefix_append _ _) hp
  obtain ⟨hvalue', hnames', hfindings'⟩ := writes_execution h.consistent h.nodup_written h.top _ _
    (List.prefix_refl _) (List.prefix_refl _) hnames
  have hentries : (entries s.index functions main : Emit _) =
      definitions s.index functions >>= fun defined =>
      (if main.isEmpty then pure [] else Emit.scope s.index.topScope main {} none 0 true) >>=
        fun executed => get >>= fun p =>
          note (.script s.blocks.length p.table.size p.findings.length) >>= fun _ =>
            pure (Plan.part Plan.functionsBanner functions defined ++
              Plan.part Plan.executionBanner main executed) := by
    cases main <;> rfl
  simp only [hentries, outcome_bind, outcome_get, outcome_note, outcome_pure]
  refine ⟨?_, hnames', ?_⟩
  · rw [hvalue, hvalue', Layout.script]
  · rw [Pass.findings_note, hfindings', hfindings, Layout.script]
    simp [Event.finding?]

theorem plan_eq (suffixLength : Int) (s : Snapshot) :
    s.plan suffixLength = Id.run (planOf suffixLength s.index s.findings) := rfl

/-- **A generation that does not stop at a cycle** gives the names of the scopes that are written,
and writes the layout for them. -/
theorem plan_of_orders {s : Snapshot} (hs : s.Valid) (suffixLength : Int)
    {functions main : List BlockId} (ho : orders s.index = .ok (functions, main)) :
    (s.plan suffixLength).pass.table =
        (s.index.namesAfter { suffixLength } (s.index.written functions main)).2 ∧
      (s.plan suffixLength).entries? = some (Layout.script s.index
        (s.plan suffixLength).pass.table functions main).entries ∧
      (s.plan suffixLength).pass.findings = s.findings ++ (Layout.script s.index
        (s.plan suffixLength).pass.table functions main).findings := by
  let start : Pass := { binder := { suffixLength }, journal := s.findings.map .finding }
  have hstart : start.findings = s.findings := by
    simp [start, Pass.findings, Event.finding?, Function.comp_def]
  have hplan : s.plan suffixLength = ⟨some (outcome (entries s.index functions main) start).1,
      (outcome (entries s.index functions main) start).2⟩ := by
    simp only [plan_eq, planOf, Answers.orders, ho]
    rfl
  obtain ⟨hvalue, hnames, hfindings⟩ := s.outcome_entries (hs.consistent.ordering ho)
    (show start.names = ({ suffixLength }, {}) from rfl)
  have htable : (s.plan suffixLength).pass.table = (s.index.namesAfter { suffixLength }
      (s.index.written functions main)).2 := by
    rw [hplan]
    exact congrArg Prod.snd hnames
  refine ⟨htable, ?_, ?_⟩
  · rw [htable, hplan, ← hvalue]
  · rw [htable, hplan, ← hstart]
    exact hfindings

/-- A generation that stops at a cycle writes nothing and gives no names. -/
theorem plan_of_cycle {s : Snapshot} (suffixLength : Int) {cycle : List BlockId}
    (ho : orders s.index = .error cycle) :
    (s.plan suffixLength).entries? = none ∧ (s.plan suffixLength).pass.table = {} ∧
      (s.plan suffixLength).pass.findings = s.findings ++ [.graphCycle cycle] := by
  have hplan : s.plan suffixLength = ⟨none, Pass.note
      { binder := { suffixLength }, journal := s.findings.map .finding }
      (.finding (.graphCycle cycle))⟩ := by
    simp only [plan_eq, planOf, Answers.orders, ho]
    rfl
  simp [hplan, Pass.note, Pass.findings, Event.finding?, Function.comp_def]

/-- The entries and findings of a generation are those of the layout for its own table, and that
table has the names of the script. -/
theorem plan_spec {s : Snapshot} (hs : s.Valid) {suffixLength : Int} {es : List Entry}
    (h : (s.plan suffixLength).entries? = some es) :
    ∃ functions main, s.index.Named (s.plan suffixLength).pass.table functions main ∧
      es = (Layout.script s.index (s.plan suffixLength).pass.table functions main).entries ∧
      (s.plan suffixLength).pass.findings = s.findings ++
        (Layout.script s.index (s.plan suffixLength).pass.table functions main).findings := by
  cases ho : orders s.index with
  | error cycle => simp [(plan_of_cycle suffixLength ho).1] at h
  | ok o =>
    obtain ⟨functions, main⟩ := o
    obtain ⟨htable, hentries, hfindings⟩ := plan_of_orders hs suffixLength ho
    refine ⟨functions, main, ?_, Option.some.inj (h.symm.trans hentries), hfindings⟩
    rw [htable]
    exact (hs.consistent.ordering ho).named _

end Snapshot

end BlockScript
