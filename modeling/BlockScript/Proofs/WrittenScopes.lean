import BlockScript.Proofs.Scopes
import BlockScript.Proofs.StatementOrder
import BlockScript.Script.Generation

/-!
# The scopes that are written

Writing a scope leads to the zones of its control-flow containers, and so on inward; a zone that
is empty or whose blocks depend on each other in a cycle is not written.  `scopesIn` lists the
scopes below a zone in the order in which they are written, `written` those of a whole script.

* `nodup_written`: **no scope is written twice.**
* `mem_written_iff`: **a scope is written if and only if it and all scopes on the way outward can
  be sorted** (`IsWritten`); that the levels never run out is part of this.
-/

namespace BlockScript

open Emit

/-- The statements of a scope. -/
abbrev Scope.statements (s : Scope) (order : List BlockId) : List Statement :=
  Emit.statements s.index (s.chains order) order

/-! ### The branches of a container -/

/-- The branches of a block, kind by kind. -/
inductive Emit.BranchList (g : Index) (block : Block) : Prop
  | nothing (controlFlow_eq : block.isControlFlow = false)
      (branches_eq : ∀ target source, branches g block target source = [])
  | thenOnly (condition : String) (thenChildren elseChildren : List BlockId)
      (container_eq : block.container = some (.ifElse condition thenChildren elseChildren))
      (else_eq : (g.zoneChildren ⟨block.id, .elseZone⟩).isEmpty)
      (branches_eq : ∀ target source, branches g block target source =
        [⟨target, source, .ifBranch (Container.resolveCondition condition), .thenZone, source⟩])
  | thenElse (condition : String) (thenChildren elseChildren : List BlockId)
      (container_eq : block.container = some (.ifElse condition thenChildren elseChildren))
      (branches_eq : ∀ target source, branches g block target source =
        [⟨target, source, .ifBranch (Container.resolveCondition condition), .thenZone, source⟩,
          ⟨none, none, .elseBranch, .elseZone, source⟩])
  | forEach (children : List BlockId) (container_eq : block.container = some (.forEach children))
      (branches_eq : ∀ target source, branches g block target source =
        [⟨target, source, .forEach, .body, some .item⟩])
  | whileLoop (condition : String) (children : List BlockId)
      (container_eq : block.container = some (.whileLoop condition children))
      (branches_eq : ∀ target source, branches g block target source =
        [⟨target, source, .whileLoop (Container.resolveCondition condition), .body, source⟩])
  | tryCatch (tryChildren catchChildren : List BlockId)
      (container_eq : block.container = some (.tryCatch tryChildren catchChildren))
      (branches_eq : ∀ target source, branches g block target source =
        [⟨target, source, .tryBranch, .tryZone, source⟩,
          ⟨none, none, .catchBranch, .catchZone, none⟩])

theorem Emit.branchList (g : Index) (block : Block) : BranchList g block := by
  cases hc : block.container with
  | none =>
    refine .nothing ?_ fun target source => by simp [branches, hc]
    simp [Block.isControlFlow, Block.isContainer, hc]
  | some c =>
    cases c with
    | function name inputParam children =>
      refine .nothing ?_ fun target source => by simp [branches, hc]
      simp [Block.isControlFlow, Block.isCallable, Block.functionName?, hc]
    | ifElse condition thenChildren elseChildren =>
      by_cases helse : (g.zoneChildren ⟨block.id, .elseZone⟩).isEmpty
      · exact .thenOnly _ _ _ hc helse fun target source => by simp [branches, hc, helse]
      · exact .thenElse _ _ _ hc fun target source => by simp [branches, hc, helse]
    | forEach children => exact .forEach _ hc fun target source => by simp [branches, hc]
    | whileLoop condition children =>
      exact .whileLoop _ _ hc fun target source => by simp [branches, hc]
    | tryCatch tryChildren catchChildren =>
      exact .tryCatch _ _ hc fun target source => by simp [branches, hc]

namespace Index

variable {g : Index}

/-! ### The zones of a container -/

/-- The zones that a control-flow container writes. -/
def branchZones (g : Index) (block : Block) : List ZoneLabel :=
  (branches g block none none).map Branch.zone

theorem map_zone_branches (block : Block) (target : Option String) (source : Option Source) :
    (branches g block target source).map Branch.zone = g.branchZones block := by
  rw [branchZones]
  cases branchList g block <;> rename_i hbranches <;> simp only [hbranches] <;> rfl

theorem nodup_branchZones (block : Block) : (g.branchZones block).Nodup := by
  rw [branchZones]
  cases branchList g block <;> rename_i hbranches <;> simp [hbranches]

/-- A control-flow container writes each of its zones that has blocks. -/
theorem mem_branchZones {block : Block} (hblock : g.block? block.id = some block)
    (hcf : block.isControlFlow) {zone : ZoneLabel}
    (hne : (g.zoneScope ⟨block.id, zone⟩).ids ≠ []) : zone ∈ g.branchZones block := by
  have hlabel : zone ∈ block.zones.map Zone.label := by
    by_contra hnot
    have hnone : block.zone? zone = none := by
      rw [Block.zone?, List.find?_eq_none]
      intro z hz heq
      exact hnot (List.mem_map.mpr ⟨z, hz, by simpa using heq⟩)
    simp [zoneScope, zoneChildren, hblock, hnone] at hne
  rw [branchZones]
  cases branchList g block with
  | nothing hflow =>
    rw [hflow] at hcf
    cases hcf
  | thenOnly condition thenChildren elseChildren hc helse hbranches =>
    have hcases : zone = .thenZone ∨ zone = .elseZone := by
      simpa [Block.zones, hc, Container.zones] using hlabel
    rcases hcases with rfl | rfl
    · simp [hbranches]
    · simp [zoneScope, List.isEmpty_iff.mp helse] at hne
  | thenElse _ _ _ hc hbranches | forEach _ hc hbranches | whileLoop _ _ hc hbranches
  | tryCatch _ _ hc hbranches =>
    simpa [Block.zones, hc, Container.zones, hbranches] using hlabel

/-- The zones that a statement writes. -/
def statementZones (g : Index) : Statement → List Place
  | .container id => match g.block? id with
    | some block => (g.branchZones block).map (⟨id, ·⟩)
    | none => []
  | .chain _ => []

/-- The zones that the statements of a scope write. -/
def zonesOf (g : Index) (P : Option Place) (order : List BlockId) : List Place :=
  ((g.scopeAt P).statements order).flatMap g.statementZones

theorem mem_statementZones {st : Statement} {place : Place} : place ∈ g.statementZones st ↔
    st = .container place.container ∧
      ∃ block, g.block? place.container = some block ∧ place.zone ∈ g.branchZones block := by
  cases st with
  | chain c => simp [statementZones]
  | container id =>
    rw [statementZones]
    constructor
    · intro hmem
      split at hmem
      · rename_i block hblock
        obtain ⟨zone, hzone, rfl⟩ := List.mem_map.mp hmem
        exact ⟨rfl, block, hblock, hzone⟩
      · simp at hmem
    · rintro ⟨heq, block, hblock, hzone⟩
      obtain rfl := Statement.container.inj heq
      rw [hblock]
      exact List.mem_map.mpr ⟨place.zone, hzone, rfl⟩

theorem mem_zonesOf {P : Option Place} {order : List BlockId}
    (h : OrderedScope (g.scopeAt P) order) {place : Place} : place ∈ g.zonesOf P order ↔
      place.container ∈ (g.scopeAt P).ids ∧ g.isControlFlow place.container ∧
        ∃ block, g.block? place.container = some block ∧ place.zone ∈ g.branchZones block := by
  simp only [zonesOf, List.mem_flatMap, mem_statementZones]
  rw [← h.perm.mem_iff, ← and_assoc]
  constructor
  · rintro ⟨st, hst, rfl, hblock⟩
    exact ⟨by simpa using h.container_mem_iff.mp hst, hblock⟩
  · rintro ⟨hmem, hblock⟩
    exact ⟨_, h.container_mem_iff.mpr (by simpa using hmem), rfl, hblock⟩

theorem nodup_zonesOf {P : Option Place} {order : List BlockId}
    (h : OrderedScope (g.scopeAt P) order) : (g.zonesOf P order).Nodup := by
  rw [zonesOf, List.nodup_flatMap]
  constructor
  · intro st hst
    cases st with
    | chain c => exact List.nodup_nil
    | container id =>
      rw [statementZones]
      split
      · refine (nodup_branchZones _).map ?_
        intro a b hab
        exact (Place.mk.inj hab).2
      · exact List.nodup_nil
  · refine h.nodup_statements.imp ?_
    intro a b hne place ha hb
    exact hne ((mem_statementZones.mp ha).1.trans (mem_statementZones.mp hb).1.symm)

/-! ### From scope to scope, inward -/

/-- The scopes below a zone that are written, the zone itself first. -/
def scopesIn (g : Index) : Nat → Place → List (Option Place)
  | 0, _ => []
  | depth + 1, place =>
    if (g.zoneScope place).ids.isEmpty then []
    else match (g.zoneScope place).sorted with
      | .error _ => []
      | .ok order => some place :: (g.zonesOf (some place) order).flatMap (g.scopesIn depth)

/-- The blocks of the scope can be put in order. -/
def Sorts (g : Index) (P : Option Place) : Prop := ∃ order, (g.scopeAt P).sorted = .ok order

instance (P : Option Place) : Decidable (g.Sorts P) :=
  match h : (g.scopeAt P).sorted with
  | .ok order => isTrue ⟨order, h⟩
  | .error _ => isFalse fun ⟨order, ho⟩ => by rw [h] at ho; cases ho

theorem Consistent.orderedScope (h : g.Consistent) {P : Option Place} {order : List BlockId}
    (hsorted : (g.scopeAt P).sorted = .ok order) : OrderedScope (g.scopeAt P) order :=
  Scope.orderedScope (h.nodup_scopeAt P) hsorted

/-- What is written below a zone: the zone, if it can be sorted, and what is written below the
zones of its containers. -/
theorem mem_scopesIn_succ {depth : Nat} {place : Place} {Q : Option Place} :
    Q ∈ g.scopesIn (depth + 1) place ↔ (g.scopeAt (some place)).ids ≠ [] ∧
      ∃ order, (g.scopeAt (some place)).sorted = .ok order ∧
        (Q = some place ∨ ∃ inner ∈ g.zonesOf (some place) order, Q ∈ g.scopesIn depth inner) := by
  rw [scopesIn, scopeAt]
  by_cases hempty : (g.zoneScope place).ids.isEmpty
  · simp [List.isEmpty_iff.mp hempty]
  · have hne : (g.zoneScope place).ids ≠ [] := fun heq => hempty (List.isEmpty_iff.mpr heq)
    rw [if_neg hempty]
    cases hsorted : (g.zoneScope place).sorted with
    | error cycle => simp
    | ok order => simp [hne]

/-- What is written below a zone lies inside it, and everything on the way can be sorted. -/
theorem Consistent.sorts_of_mem_scopesIn (h : g.Consistent) {depth : Nat} {place : Place}
    {Q : Option Place} (hQ : Q ∈ g.scopesIn depth place) :
    some place ∈ g.scopesFrom Q ∧
      ∀ R ∈ g.scopesFrom Q, some place ∈ g.scopesFrom R → g.Sorts R := by
  induction depth generalizing place with
  | zero => simp [scopesIn] at hQ
  | succ depth ih =>
    obtain ⟨-, order, hsorted, hcases⟩ := mem_scopesIn_succ.mp hQ
    rcases hcases with rfl | ⟨inner, hinner, hQ⟩
    · refine ⟨self_mem_scopesFrom _, fun R hR hback => ?_⟩
      rw [← h.eq_of_mem_scopesFrom hR hback]
      exact ⟨order, hsorted⟩
    · obtain ⟨hid, hcf, -⟩ := (mem_zonesOf (h.orderedScope hsorted)).mp hinner
      have hzone := h.scopesFrom_zone hid hcf inner.zone
      obtain ⟨hout, hsorts⟩ := ih hQ
      have hplace : some place ∈ g.scopesFrom (some inner) := by
        rw [hzone]
        exact List.mem_cons_of_mem _ (self_mem_scopesFrom _)
      refine ⟨h.scopesFrom_trans hout hplace, fun R hR hback => ?_⟩
      rcases h.mem_scopesFrom_total hR hout with hin | hin
      · exact hsorts R hR hin
      · rw [hzone, List.mem_cons] at hin
        rcases hin with rfl | hin
        · exact hsorts _ hR (self_mem_scopesFrom _)
        · rw [← h.eq_of_mem_scopesFrom hin hback]
          exact ⟨order, hsorted⟩

/-- The zones of one scope have no written scope in common. -/
theorem Consistent.zone_eq_of_mem_scopesIn (h : g.Consistent) {P Q : Option Place}
    {order : List BlockId} (hs : OrderedScope (g.scopeAt P) order) {depth : Nat} {a b : Place}
    (ha : a ∈ g.zonesOf P order) (hb : b ∈ g.zonesOf P order) (hQa : Q ∈ g.scopesIn depth a)
    (hQb : Q ∈ g.scopesIn depth b) : a = b := by
  obtain ⟨hida, -⟩ := (mem_zonesOf hs).mp ha
  obtain ⟨hidb, -⟩ := (mem_zonesOf hs).mp hb
  refine h.zone_eq_of_mem (h.sorts_of_mem_scopesIn hQa).1 (h.sorts_of_mem_scopesIn hQb).1 ?_
  rw [(h.mem_scopeAt.mp hida).2, (h.mem_scopeAt.mp hidb).2]

/-- A scope and what is written below it, each once. -/
theorem Consistent.nodup_cons_scopesIn (h : g.Consistent) {P : Option Place}
    {order : List BlockId} (hs : OrderedScope (g.scopeAt P) order) {depth : Nat}
    (hinner : ∀ place, (g.scopesIn depth place).Nodup) :
    (P :: (g.zonesOf P order).flatMap (g.scopesIn depth)).Nodup := by
  rw [List.nodup_cons, List.nodup_flatMap]
  refine ⟨fun hmem => ?_, fun place _ => hinner place, ?_⟩
  · -- the scope would lie inside one of its own zones
    obtain ⟨place, hplace, hP⟩ := List.mem_flatMap.mp hmem
    obtain ⟨hid, -⟩ := (mem_zonesOf hs).mp hplace
    have hle := h.depth_le (h.sorts_of_mem_scopesIn hP).1
    rw [h.depth_zone, (h.mem_scopeAt.mp hid).2] at hle
    omega
  · refine (nodup_zonesOf hs).imp_of_mem ?_
    intro a b ha hb hne Q hQa hQb
    exact hne (h.zone_eq_of_mem_scopesIn hs ha hb hQa hQb)

theorem Consistent.nodup_scopesIn (h : g.Consistent) (depth : Nat) (place : Place) :
    (g.scopesIn depth place).Nodup := by
  induction depth generalizing place with
  | zero => exact List.nodup_nil
  | succ depth ih =>
    rw [scopesIn]
    split
    · exact List.nodup_nil
    · split
      · exact List.nodup_nil
      · rename_i order hsorted
        have hs : OrderedScope (g.scopeAt (some place)) order := h.orderedScope hsorted
        exact h.nodup_cons_scopesIn hs ih

/-! ### The levels do not run out -/

theorem self_mem_scopesIn {depth : Nat} (hdepth : 0 < depth) {place : Place}
    (hne : (g.scopeAt (some place)).ids ≠ []) (hsorts : g.Sorts (some place)) :
    some place ∈ g.scopesIn depth place := by
  obtain ⟨order, hsorted⟩ := hsorts
  obtain ⟨depth, rfl⟩ := Nat.exists_eq_succ_of_ne_zero (by omega : depth ≠ 0)
  exact mem_scopesIn_succ.mpr ⟨hne, order, hsorted, Or.inl rfl⟩

/-- Where a scope is written, its zones are. -/
theorem Consistent.zone_mem_of_mem_zonesOf (h : g.Consistent) {P : Option Place} {id : BlockId}
    (hid : id ∈ (g.scopeAt P).ids) (hcf : g.isControlFlow id) {order : List BlockId}
    (hsorted : (g.scopeAt P).sorted = .ok order) {zone : ZoneLabel}
    (hne : (g.scopeAt (some ⟨id, zone⟩)).ids ≠ []) : ⟨id, zone⟩ ∈ g.zonesOf P order := by
  obtain ⟨block, hblock, hflow⟩ := isControlFlow_iff.mp hcf
  obtain ⟨-, rfl⟩ := mem_of_block? hblock
  exact (mem_zonesOf (h.orderedScope hsorted)).mpr
    ⟨hid, hcf, block, hblock, mem_branchZones hblock hflow hne⟩

/-- Below a zone with enough levels left, where a scope is written, its zones are written. -/
theorem Consistent.zone_mem_scopesIn (h : g.Consistent) {depth : Nat} {place : Place}
    (hlevels : g.blocks.length < depth + g.depth (some place)) {Q : Option Place}
    (hQ : Q ∈ g.scopesIn depth place) {id : BlockId} (hid : id ∈ (g.scopeAt Q).ids)
    (hcf : g.isControlFlow id) {zone : ZoneLabel} (hne : (g.scopeAt (some ⟨id, zone⟩)).ids ≠ [])
    (hsorts : g.Sorts (some ⟨id, zone⟩)) : some ⟨id, zone⟩ ∈ g.scopesIn depth place := by
  induction depth generalizing place with
  | zero => simp [scopesIn] at hQ
  | succ depth ih =>
    obtain ⟨hplace, order, hsorted, hcases⟩ := mem_scopesIn_succ.mp hQ
    rcases hcases with rfl | ⟨inner, hinner, hQ⟩
    · have hzone : g.depth (some ⟨id, zone⟩) = g.depth (some place) + 1 := by
        rw [h.depth_zone, (h.mem_scopeAt.mp hid).2]
      have hle := h.depth_zone_le (h.mem_scopeAt.mp hid).1 zone
      refine mem_scopesIn_succ.mpr ⟨hplace, order, hsorted, Or.inr ⟨⟨id, zone⟩, ?_, ?_⟩⟩
      · exact h.zone_mem_of_mem_zonesOf hid hcf hsorted hne
      · exact self_mem_scopesIn (by omega) hne hsorts
    · obtain ⟨hidi, -⟩ := (mem_zonesOf (h.orderedScope hsorted)).mp hinner
      have hzone : g.depth (some inner) = g.depth (some place) + 1 := by
        rw [h.depth_zone, (h.mem_scopeAt.mp hidi).2]
      exact mem_scopesIn_succ.mpr
        ⟨hplace, order, hsorted, Or.inr ⟨inner, hinner, ih (by omega) hQ⟩⟩

/-! ### The scopes of a script -/

/-- The scopes of a script: the bodies of the functions with what lies inside, then the top level
with what lies inside. -/
def written (g : Index) (functions main : List BlockId) : List (Option Place) :=
  functions.flatMap (fun id => g.scopesIn g.blocks.length ⟨id, .body⟩) ++
    if main.isEmpty then []
    else none :: (g.zonesOf none main).flatMap (g.scopesIn g.blocks.length)

/-- The scope and all scopes on the way outward can be sorted. -/
def IsWritten (g : Index) (P : Option Place) : Prop := ∀ R ∈ g.scopesFrom P, g.Sorts R

instance (P : Option Place) : Decidable (g.IsWritten P) :=
  inferInstanceAs (Decidable (∀ R ∈ g.scopesFrom P, g.Sorts R))

theorem mem_callables (h : g.Consistent) {id : BlockId} :
    id ∈ g.callables ↔ g.isCallable id := by
  simp only [callables, List.mem_map, List.mem_filter, isCallable_iff]
  constructor
  · rintro ⟨b, ⟨hb, hcall⟩, rfl⟩
    exact ⟨b, h.block?_of_mem hb, hcall⟩
  · rintro ⟨b, hb, hcall⟩
    obtain ⟨hmem, rfl⟩ := mem_of_block? hb
    exact ⟨b, ⟨hmem, hcall⟩, rfl⟩

/-- A function has no zone but its body. -/
theorem zone_eq_body {place : Place} (hcall : g.isCallable place.container)
    (hne : (g.scopeAt (some place)).ids ≠ []) : place = ⟨place.container, .body⟩ := by
  obtain ⟨block, hblock, hfun⟩ := isCallable_iff.mp hcall
  have hlisted : block.zone? place.zone ≠ none := by
    intro hnone
    simp [scopeAt, zoneScope, zoneChildren, hblock, hnone] at hne
  obtain ⟨container, zone⟩ := place
  obtain ⟨name, inputParam, body, hc⟩ := Block.exists_function_of_isCallable hfun
  cases zone <;> simp_all [Block.zone?, Block.zones, Container.zones]

/-- The functions and the top-level blocks of a graph, in the orders in which they are written. -/
structure Ordering (g : Index) (functions main : List BlockId) : Prop where
  consistent : g.Consistent
  functions_nodup : functions.Nodup
  mem_functions : ∀ id, id ∈ functions ↔ g.isCallable id
  top : (g.scopeAt none).sorted = .ok main

theorem Consistent.ordering (h : g.Consistent) {functions main : List BlockId}
    (ho : Snapshot.orders g = .ok (functions, main)) : g.Ordering functions main := by
  have hsorted : g.topScope.sorted = .ok main ∧ g.callableScope.sorted = .ok functions := by
    simp only [Snapshot.orders, bind, Except.bind, pure, Except.pure] at ho
    split at ho
    · cases ho
    · split at ho
      · cases ho
      · rename_i hmain _ _ hfunctions
        cases ho
        exact ⟨hmain, hfunctions⟩
  have hnodup : g.callableScope.ids.Nodup :=
    h.ids_nodup.sublist ((List.filter_sublist).map _)
  obtain ⟨hperm, -⟩ := Scope.sorted_ok hnodup hsorted.2
  refine ⟨h, hperm.nodup_iff.mpr hnodup, fun id => ?_, hsorted.1⟩
  rw [hperm.mem_iff]
  exact mem_callables h

namespace Ordering

variable {functions main : List BlockId}

theorem orderedTop (h : g.Ordering functions main) : OrderedScope (g.scopeAt none) main :=
  h.consistent.orderedScope h.top

theorem mem_written (h : g.Ordering functions main) {Q : Option Place} :
    Q ∈ g.written functions main ↔
      (∃ id, g.isCallable id ∧ Q ∈ g.scopesIn g.blocks.length ⟨id, .body⟩) ∨
        (main ≠ [] ∧ (Q = none ∨
          ∃ place ∈ g.zonesOf none main, Q ∈ g.scopesIn g.blocks.length place)) := by
  simp only [written, List.mem_append, List.mem_flatMap, h.mem_functions]
  cases main <;> simp

/-- A function body is where the way outward ends. -/
theorem scopesFrom_body {id : BlockId} (hcall : g.isCallable id) :
    g.scopesFrom (some ⟨id, .body⟩) = [some ⟨id, .body⟩] := scopesFrom_of_callable hcall

/-- What is written below the top level has the top level around it. -/
theorem none_mem_scopesFrom (h : g.Ordering functions main) {Q : Option Place}
    (hQ : Q = none ∨ ∃ place ∈ g.zonesOf none main, Q ∈ g.scopesIn g.blocks.length place) :
    none ∈ g.scopesFrom Q ∧ ∀ R ∈ g.scopesFrom Q, g.Sorts R := by
  have hg := h.consistent
  rcases hQ with rfl | ⟨place, hplace, hQ⟩
  · refine ⟨self_mem_scopesFrom _, fun R hR => ?_⟩
    obtain rfl : R = none := by simpa using hR
    exact ⟨main, h.top⟩
  · obtain ⟨hid, hcf, -⟩ := (mem_zonesOf h.orderedTop).mp hplace
    have hzone := hg.scopesFrom_zone hid hcf place.zone
    obtain ⟨hout, hsorts⟩ := hg.sorts_of_mem_scopesIn hQ
    refine ⟨hg.scopesFrom_trans hout (by rw [hzone]; simp), fun R hR => ?_⟩
    rcases hg.mem_scopesFrom_total hR hout with hin | hin
    · exact hsorts R hR hin
    · rw [hzone, List.mem_cons] at hin
      rcases hin with rfl | hin
      · exact hsorts _ hR (self_mem_scopesFrom _)
      · obtain rfl : R = none := by simpa using hin
        exact ⟨main, h.top⟩

/-- **No scope is written twice.** -/
theorem nodup_written (h : g.Ordering functions main) : (g.written functions main).Nodup := by
  have hg := h.consistent
  rw [written, List.nodup_append]
  refine ⟨?_, ?_, ?_⟩
  · rw [List.nodup_flatMap]
    refine ⟨fun id _ => hg.nodup_scopesIn _ _, ?_⟩
    refine h.functions_nodup.imp_of_mem ?_
    intro a b ha hb hne Q hQa hQb
    have hroot := hg.root_unique (hg.sorts_of_mem_scopesIn hQa).1 (hg.sorts_of_mem_scopesIn hQb).1
      (scopesFrom_body ((h.mem_functions a).mp ha)) (scopesFrom_body ((h.mem_functions b).mp hb))
    simp_all
  · split
    · exact List.nodup_nil
    · exact hg.nodup_cons_scopesIn h.orderedTop fun place => hg.nodup_scopesIn _ place
  · -- a way outward ends in a function or at the top level, not in both
    intro Q hQ R hR heq
    subst heq
    obtain ⟨id, hid, hQ⟩ := List.mem_flatMap.mp hQ
    split at hR
    · simp at hR
    · have hnone := (h.none_mem_scopesFrom (by simpa using hR)).1
      have hroot := hg.root_unique (hg.sorts_of_mem_scopesIn hQ).1 hnone
        (scopesFrom_body ((h.mem_functions id).mp hid)) scopesFrom_none
      simp at hroot

/-- Where a scope is written, its zones are written. -/
theorem zone_mem_written (h : g.Ordering functions main) {Q : Option Place}
    (hQ : Q ∈ g.written functions main) {id : BlockId} (hid : id ∈ (g.scopeAt Q).ids)
    (hcf : g.isControlFlow id) {zone : ZoneLabel} (hne : (g.scopeAt (some ⟨id, zone⟩)).ids ≠ [])
    (hsorts : g.Sorts (some ⟨id, zone⟩)) : some ⟨id, zone⟩ ∈ g.written functions main := by
  have hg := h.consistent
  have hlevels : ∀ place, g.blocks.length < g.blocks.length + g.depth (some place) := by
    intro place
    simp [depth]
  rw [h.mem_written] at hQ ⊢
  rcases hQ with ⟨f, hf, hQ⟩ | ⟨hmain, rfl | ⟨place, hplace, hQ⟩⟩
  · exact Or.inl ⟨f, hf, hg.zone_mem_scopesIn (hlevels _) hQ hid hcf hne hsorts⟩
  · refine Or.inr ⟨hmain, Or.inr ⟨⟨id, zone⟩, ?_, ?_⟩⟩
    · exact hg.zone_mem_of_mem_zonesOf hid hcf h.top hne
    · have hle := hg.depth_zone_le (hg.mem_scopeAt.mp hid).1 zone
      refine self_mem_scopesIn ?_ hne hsorts
      rw [depth] at hle
      omega
  · exact Or.inr ⟨hmain, Or.inr ⟨place, hplace,
      hg.zone_mem_scopesIn (hlevels _) hQ hid hcf hne hsorts⟩⟩

/-- **The scopes that are written** are those that can be sorted together with all scopes on the
way outward. -/
theorem mem_written_iff (h : g.Ordering functions main) {Q : Option Place}
    (hne : (g.scopeAt Q).ids ≠ []) : Q ∈ g.written functions main ↔ g.IsWritten Q := by
  have hg := h.consistent
  constructor
  · intro hQ R hR
    rcases h.mem_written.mp hQ with ⟨f, hf, hQ⟩ | ⟨-, hQ⟩
    · obtain ⟨hout, hsorts⟩ := hg.sorts_of_mem_scopesIn hQ
      rcases hg.mem_scopesFrom_total hR hout with hin | hin
      · exact hsorts R hR hin
      · rw [scopesFrom_body hf, List.mem_singleton] at hin
        exact hin ▸ hsorts _ hout (self_mem_scopesFrom _)
    · exact (h.none_mem_scopesFrom hQ).2 R hR
  · intro hwritten
    induction Q using hg.outward with
    | top =>
      refine h.mem_written.mpr (Or.inr ⟨fun hmain => hne ?_, Or.inl rfl⟩)
      have hperm := h.orderedTop.perm
      rw [hmain] at hperm
      exact hperm.symm.eq_nil
    | zone place ih =>
      have hsorts := hwritten _ (self_mem_scopesFrom _)
      obtain ⟨x, hx⟩ := List.exists_mem_of_ne_nil _ hne
      have hcontainer := hg.container_mem_ids (hg.mem_scopeAt.mp hx).2
      by_cases hcall : g.isCallable place.container
      · refine h.mem_written.mpr (Or.inl ⟨place.container, hcall, ?_⟩)
        rw [← zone_eq_body hcall hne]
        refine self_mem_scopesIn ?_ hne hsorts
        have := hg.length_ancestors_lt hcontainer
        omega
      · rw [Bool.not_eq_true] at hcall
        have hid : place.container ∈ (g.scopeAt (g.parent? place.container)).ids :=
          hg.mem_scopeAt.mpr ⟨hcontainer, rfl⟩
        have hcons := hg.scopesFrom_of_not_callable hcall
        refine h.zone_mem_written (ih ?_ ?_) hid ?_ hne hsorts
        · exact List.ne_nil_of_mem hid
        · exact fun R hR => hwritten R (by rw [hcons]; exact List.mem_cons_of_mem _ hR)
        · exact hg.isControlFlow_of_parent? (hg.mem_scopeAt.mp hx).2 hcall

end Ordering

end Index

end BlockScript
