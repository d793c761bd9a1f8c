import BlockScript.Proofs.AgreeingScopes
import BlockScript.Proofs.GivenNames

/-!
# A block that nothing refers to

A graph with one more block, a leaf that no connection and no zone knows of, is `Index.Adds`.  The
block is the last of the top level; apart from that all scopes are as before, and none of them
answers a question in another way (`Index.Adds.agree`).  It comes last in the order of the top level
(`Index.Adds.sorted_top`), is a chain of its own (`Index.Adds.chains_top`) and a statement of its
own (`Index.Adds.statements_top`), and no name is given for it (`Index.Adds.nameScope`).

The bounds on sorting and on chains grow with the number of blocks.  They are never reached, so one
level more changes nothing (`Order.visit_succ`, `Scope.stagesAfter_succ`).
-/

namespace BlockScript

open Emit

/-! ### Levels that are not needed -/

theorem foldlM_congr {α β ε : Type} {f f' : β → α → Except ε β} {l : List α}
    (h : ∀ b, ∀ a ∈ l, f' b a = f b a) (b : β) : l.foldlM f' b = l.foldlM f b := by
  induction l generalizing b with
  | nil => rfl
  | cons a l ih =>
    rw [List.foldlM_cons, List.foldlM_cons, h b a List.mem_cons_self]
    exact congrArg _ (funext fun b => ih (fun b x hx => h b x (List.mem_cons_of_mem _ hx)) b)

/-- Two runs are the same if their steps are, after the steps before. -/
theorem foldl_congr_front {α β : Type} {f f' : β → α → β} {l : List α} {start : β}
    (h : ∀ front a back, l = front ++ a :: back →
      f' (front.foldl f start) a = f (front.foldl f start) a) :
    l.foldl f' start = l.foldl f start := by
  induction l generalizing start with
  | nil => rfl
  | cons a l ih =>
    have hfirst : f' start a = f start a := h [] a l rfl
    rw [List.foldl_cons, List.foldl_cons, hfirst]
    exact ih fun front b back hsplit => h (a :: front) b back (by simp [hsplit])

namespace Order

variable {α : Type} [DecidableEq α] {dependencies : α → List α} {blocks : List α}

/-- One level more than there are blocks that are not open changes nothing. -/
theorem visit_succ (hclosed : ∀ b ∈ blocks, dependencies b ⊆ blocks) {fuel : Nat}
    {path : List α} {x : α} (hx : x ∈ blocks) (hpath : path.Nodup) (hsub : path ⊆ blocks)
    (hfuel : blocks.length < fuel + path.length) (done : List α) :
    visit dependencies (fuel + 1) path done x = visit dependencies fuel path done x := by
  induction fuel generalizing path x done with
  | zero =>
    -- the open blocks are different, so they cannot outnumber the blocks
    have := (hpath.subperm hsub).length_le
    omega
  | succ fuel ih =>
    rw [visit, visit]
    by_cases hopen : x ∈ path
    · simp only [if_pos hopen]
    · have hbelow : (dependencies x).foldlM (visit dependencies (fuel + 1) (x :: path)) done =
          (dependencies x).foldlM (visit dependencies fuel (x :: path)) done :=
        foldlM_congr (fun done d hd => ih (hclosed x hx hd) (List.nodup_cons.mpr ⟨hopen, hpath⟩)
          (List.cons_subset.mpr ⟨hx, hsub⟩) (by rw [List.length_cons]; omega) done) done
      rw [hbelow]

/-- **A block that depends on nothing and is needed by none comes last.** -/
theorem sort_concat (hclosed : ∀ b ∈ blocks, dependencies b ⊆ blocks) {z : α} (hz : z ∉ blocks)
    (hfree : dependencies z = []) :
    sort dependencies (blocks ++ [z]) = (sort dependencies blocks).map (· ++ [z]) := by
  have hroots : blocks.foldlM (visit dependencies (blocks.length + 1 + 1) []) [] =
      blocks.foldlM (visit dependencies (blocks.length + 1) []) [] :=
    foldlM_congr (fun done x hx =>
      visit_succ hclosed hx List.nodup_nil (by simp) (by simp) done) []
  rw [sort, sort, List.length_append, List.length_singleton, List.foldlM_append, hroots]
  cases hsorted : blocks.foldlM (visit dependencies (blocks.length + 1) []) [] with
  | error cycle => rfl
  | ok order =>
    obtain ⟨hgrown, -⟩ := foldlM_roots_grown hclosed (List.Subset.refl _) List.nodup_nil
      ordered_nil hsorted
    have hnew : z ∉ order := fun hmem => (hgrown.new z hmem).elim (by simp) fun h => hz h.1
    have hvisit : visit dependencies (blocks.length + 1 + 1) [] order z = .ok (order ++ [z]) := by
      rw [visit, if_neg hnew, if_neg (by simp), hfree]
      rfl
    change [z].foldlM (visit dependencies (blocks.length + 1 + 1) []) order = .ok (order ++ [z])
    rw [List.foldlM_cons, hvisit]
    rfl

end Order

namespace Scope

variable {s : Scope}

/-- One step more than there are blocks left to take changes nothing. -/
theorem stagesAfter_succ {fuel : Nat} {assigned : List BlockId} {u : BlockId} (hu : u ∈ s.ids)
    (hplain : s.index.isControlFlow u = false) (hnodup : assigned.Nodup) (hsub : assigned ⊆ s.ids)
    (hfuel : s.ids.length < fuel + assigned.length) :
    s.stagesAfter (fuel + 1) assigned u = s.stagesAfter fuel assigned u := by
  induction fuel generalizing assigned u with
  | zero =>
    have := (hnodup.subperm hsub).length_le
    omega
  | succ fuel ih =>
    rw [stagesAfter, stagesAfter]
    cases hnext : s.nextStage? assigned u with
    | none => rfl
    | some v =>
      obtain ⟨hstreams, hnew⟩ := (nextStage?_eq_some_iff hu hplain).mp hnext
      have hrest := ih hstreams.right_mem hstreams.right_plain
        (List.nodup_cons.mpr ⟨hnew, hnodup⟩) (List.cons_subset.mpr ⟨hstreams.right_mem, hsub⟩)
        (by rw [List.length_cons]; omega)
      simp only [hrest]

/-- One block more in a scope that otherwise agrees leaves the way in which a block is taken. -/
theorem Agree.addToChains_of_longer {s' : Scope} (h : s.Agree s')
    (hlength : s'.ids.length = s.ids.length + 1) {chains : List Chain} (hruns : s.Runs chains)
    {x : BlockId} (hx : x ∈ s.ids) : s'.addToChains chains x = s.addToChains chains x := by
  simp only [addToChains, h.isControlFlow, h.continuesChain, h.stagesAfter, hlength]
  split
  · rfl
  · rename_i hstarts
    simp only [Bool.or_eq_true, not_or, List.contains_eq_mem, decide_eq_true_eq,
      Bool.not_eq_true] at hstarts
    obtain ⟨⟨hfree, hplain⟩, -⟩ := hstarts
    have hinside : chains.flatMap Chain.members ⊆ s.ids := by
      intro u hu
      obtain ⟨c, hc, huc⟩ := List.mem_flatMap.mp hu
      exact (hruns.inside c hc u huc).1
    rw [stagesAfter_succ hx hplain (List.nodup_cons.mpr ⟨hfree, hruns.nodup⟩)
      (List.cons_subset.mpr ⟨hx, hinside⟩) (by rw [List.length_cons]; omega)]

/-! ### A block without references -/

section

variable {id : BlockId} (h : ¬ s.index.Refers id)
include h

theorem index_incoming_of_not_refers : s.index.incoming id = [] :=
  List.filter_eq_nil_iff.mpr fun c hc heq => h (Or.inl ⟨c, hc, Or.inr (beq_iff_eq.mp heq)⟩)

theorem index_outgoing_of_not_refers : s.index.outgoing id = [] :=
  List.filter_eq_nil_iff.mpr fun c hc heq => h (Or.inl ⟨c, hc, Or.inl (beq_iff_eq.mp heq)⟩)

theorem incoming_of_not_refers : s.incoming id = [] := by
  rw [incoming, index_incoming_of_not_refers h, List.filter_nil]

theorem outgoing_of_not_refers : s.outgoing id = [] := by
  rw [outgoing, index_outgoing_of_not_refers h, List.filter_nil]

theorem hasNestedConsumers_of_not_refers : s.hasNestedConsumers id = false := by
  rw [hasNestedConsumers, nestedConsumers, index_outgoing_of_not_refers h]
  rfl

theorem producers_of_not_refers : s.producers id = [] := by
  rw [producers, predecessors, externalProducers, incoming_of_not_refers h,
    index_incoming_of_not_refers h]
  rfl

theorem dependencies_of_not_refers : s.dependencies id = [] := by
  refine List.eq_nil_iff_forall_not_mem.mpr fun d hd => ?_
  obtain ⟨-, c, hc, -, htarget | ⟨-, hinside⟩⟩ := mem_dependencies.mp hd
  · exact h (Or.inl ⟨c, hc, Or.inr htarget⟩)
  · exact h (Or.inr ⟨c.target, hinside⟩)

theorem chainNeedsName_of_not_refers : Binder.chainNeedsName s ⟨id, []⟩ = false := by
  have hterminal : Chain.terminal ⟨id, []⟩ = id := rfl
  rw [Binder.chainNeedsName, hterminal, feedsControlFlow, successors, outgoing_of_not_refers h,
    hasNestedConsumers_of_not_refers h]
  rfl

/-- It starts a chain, and the chain ends with it. -/
theorem addToChains_of_not_refers (hplain : s.index.isControlFlow id = false)
    {chains : List Chain} (hfree : id ∉ chains.flatMap Chain.members) :
    s.addToChains chains id = chains ++ [⟨id, []⟩] := by
  have hstarts : s.continuesChain id = false := by
    rw [continuesChain, uniquePredecessor?, predecessors, incoming_of_not_refers h]
    rfl
  have hends : ∀ fuel assigned, s.stagesAfter fuel assigned id = [] := by
    intro fuel assigned
    cases fuel with
    | zero => rfl
    | succ fuel =>
      rw [stagesAfter, nextStage?, hasNestedConsumers_of_not_refers h, singleSuccessor?, successors,
        outgoing_of_not_refers h]
      rfl
  simp only [addToChains, List.contains_eq_mem, hfree, hplain, hstarts, hends, decide_false,
    Bool.or_self, Bool.false_eq_true, if_false]

end

end Scope

theorem Index.Ordering.functions_subset {g : Index} {functions main : List BlockId}
    (h : g.Ordering functions main) : functions ⊆ g.ids := by
  intro id hid
  obtain ⟨block, hblock, -⟩ := Index.isCallable_iff.mp ((h.mem_functions id).mp hid)
  exact Index.mem_ids_of_block? hblock

/-! ### The graph with one more block -/

/-- The graph `g'` has one block more than `g`: a leaf that nothing refers to. -/
structure Index.Adds (g : Index) (z : Block) (g' : Index) : Prop where
  consistent : g.Consistent
  blocks : g'.blocks = g.blocks ++ [z]
  connections : g'.connections = g.connections
  parents : g'.parents = g.parents
  leaf : z.container = none
  fresh : z.id ∉ g.ids

namespace Index.Adds

variable {g g' : Index} {z : Block} (h : g.Adds z g')
include h

theorem ne_of_mem {id : BlockId} (hid : id ∈ g.ids) : id ≠ z.id := fun heq => h.fresh (heq ▸ hid)

theorem block?_of_mem {id : BlockId} (hid : id ∈ g.ids) : g'.block? id = g.block? id := by
  obtain ⟨b, hb⟩ := Index.exists_block? hid
  rw [Index.block?, h.blocks, List.find?_append, ← Index.block?, hb, Option.some_or]

theorem block?_new : g'.block? z.id = some z := by
  have hnone : g.block? z.id = none :=
    Option.not_isSome_iff_eq_none.mp fun hsome => h.fresh (Index.isSome_block?_iff.mp hsome)
  rw [Index.block?, h.blocks, List.find?_append, ← Index.block?, hnone, Option.none_or]
  simp

/-- A question about the kind of a block has the answer no for the new one. -/
theorem any_block? {test : Block → Bool} (htest : test z = false) (id : BlockId) :
    (g'.block? id).any test = (g.block? id).any test := by
  rw [Index.block?, h.blocks, List.find?_append, ← Index.block?]
  cases hb : g.block? id with
  | some b => rfl
  | none =>
    rw [Option.none_or, List.find?_singleton]
    split <;> simp [htest]

theorem isCallable (id : BlockId) : g'.isCallable id = g.isCallable id :=
  h.any_block? (by simp [Block.isCallable, Block.functionName?, h.leaf]) id

theorem isControlFlow (id : BlockId) : g'.isControlFlow id = g.isControlFlow id :=
  h.any_block? (by simp [Block.isControlFlow, Block.isContainer, h.leaf]) id

theorem parent? (id : BlockId) : g'.parent? id = g.parent? id := by
  rw [Index.parent?, Index.parent?, h.parents]

theorem parent?_new : g.parent? z.id = none := by
  cases hp : g.parent? z.id with
  | none => rfl
  | some place => exact absurd (h.consistent.nested hp).1 h.fresh

theorem ancestors (id : BlockId) : g'.ancestors id = g.ancestors id := by
  rw [Index.ancestors, Index.ancestors, h.parents]

theorem scopesFrom (P : Option Place) : g'.scopesFrom P = g.scopesFrom P := by
  cases P with
  | none => rfl
  | some place => simp only [Index.scopesFrom, h.ancestors, h.isCallable, funext h.parent?]

theorem zoneChildren (place : Place) : g'.zoneChildren place = g.zoneChildren place := by
  by_cases hid : place.container ∈ g.ids
  · simp only [Index.zoneChildren, h.block?_of_mem hid, h.parent?]
  · -- a container that is not there has no zones, and the new block has none
    have hzones : ∀ b, g'.block? place.container = some b → b.zone? place.zone = none := by
      intro b hb
      obtain ⟨hmem, heq⟩ := Index.mem_of_block? hb
      rw [h.blocks, List.mem_append, List.mem_singleton] at hmem
      rcases hmem with hmem | rfl
      · exact absurd (heq ▸ List.mem_map_of_mem hmem) hid
      · simp [Block.zone?, Block.zones, h.leaf]
    have hnone : g.block? place.container = none :=
      Option.not_isSome_iff_eq_none.mp fun hsome => hid (Index.isSome_block?_iff.mp hsome)
    have hnone' : (g'.block? place.container).bind (·.zone? place.zone) = none :=
      Option.bind_eq_none_iff.mpr hzones
    simp only [Index.zoneChildren, hnone, hnone', Option.bind_none]

theorem topLevel : g'.topLevel = g.topLevel ++ [z.id] := by
  simp [Index.topLevel, h.blocks, h.parent?, h.parent?_new]

theorem callables : g'.callables = g.callables := by
  simp [Index.callables, h.blocks, Block.isCallable, Block.functionName?, h.leaf]

/-! ### Scopes -/

/-- A scope holds the blocks that it held, and the top level the new one too. -/
theorem contains_scopeAt {P : Option Place} {id : BlockId} (hid : id ∈ g.ids) :
    (g'.scopeAt P).contains id = (g.scopeAt P).contains id := by
  cases P with
  | none =>
    have hne := h.ne_of_mem hid
    simp [Index.scopeAt, Index.topScope, Scope.contains, h.topLevel, hne]
  | some place => simp only [Index.scopeAt, Index.zoneScope, Scope.contains, h.zoneChildren]

theorem mem_ids_of_refers {id : BlockId} (hid : g.Refers id) : id ∈ g.ids := by
  rcases hid with ⟨c, hc, rfl | rfl⟩ | ⟨n, hn⟩
  · exact (h.consistent.wired c hc).1
  · exact (h.consistent.wired c hc).2.1
  · exact (h.consistent.nodup_subset_ancestors n).2 hn

/-- **No scope answers a question in another way.** -/
theorem agree (P : Option Place) : (g.scopeAt P).Agree (g'.scopeAt P) where
  connections := by simpa using h.connections
  ancestors := by simpa using h.ancestors
  isControlFlow := by simpa using h.isControlFlow
  isCallable := by simpa using h.isCallable
  contains := fun id hid => h.contains_scopeAt (h.mem_ids_of_refers (by simpa using hid))

theorem ids_zone (place : Place) : (g'.scopeAt (some place)).ids = (g.scopeAt (some place)).ids :=
  h.zoneChildren place

theorem ids_top : (g'.scopeAt none).ids = (g.scopeAt none).ids ++ [z.id] := h.topLevel

theorem sorted_zone (place : Place) :
    (g'.scopeAt (some place)).sorted = (g.scopeAt (some place)).sorted :=
  (h.agree _).sorted (h.ids_zone place)

theorem chains_zone (place : Place) (order : List BlockId) :
    (g'.scopeAt (some place)).chains order = (g.scopeAt (some place)).chains order :=
  (h.agree _).chains (h.ids_zone place) order

theorem statements_zone (place : Place) (order : List BlockId) :
    (g'.scopeAt (some place)).statements order = (g.scopeAt (some place)).statements order :=
  (h.agree _).statements (h.ids_zone place) order

theorem sorted_callables : g'.callableScope.sorted = g.callableScope.sorted := by
  have hagree : g.callableScope.Agree g'.callableScope :=
    ⟨h.connections, h.ancestors, h.isControlFlow, h.isCallable,
      fun id _ => by simp only [Index.callableScope, Scope.contains, h.callables]⟩
  exact hagree.sorted h.callables

/-! ### The new block at the top level -/

theorem not_refers : ¬ g'.Refers z.id := by
  simp only [Index.Refers, h.connections, h.ancestors]
  exact fun hrefers => h.fresh (h.mem_ids_of_refers hrefers)

theorem isControlFlow_new : g'.isControlFlow z.id = false := by
  simp [Index.isControlFlow, h.block?_new, Block.isControlFlow, Block.isContainer, h.leaf]

/-- **The new block comes last.** -/
theorem sorted_top :
    (g'.scopeAt none).sorted = (g.scopeAt none).sorted.map (· ++ [z.id]) := by
  have hfree : (g.scopeAt none).dependencies z.id = [] := by
    rw [← (h.agree none).dependencies]
    exact Scope.dependencies_of_not_refers (by simpa using h.not_refers)
  have hnew : z.id ∉ (g.scopeAt none).ids := fun hmem =>
    h.fresh (h.consistent.scopeAt_subset none hmem)
  rw [Scope.sorted, Scope.sorted, (h.agree none).dependencies, h.ids_top]
  exact Order.sort_concat (fun _ _ _ hd => (Scope.mem_dependencies.mp hd).1) hnew hfree

theorem orders : Snapshot.orders g' =
    (Snapshot.orders g).map fun o => (o.1, o.2 ++ [z.id]) := by
  have htop : g'.topScope.sorted = g.topScope.sorted.map (· ++ [z.id]) := h.sorted_top
  rw [Snapshot.orders, Snapshot.orders, htop, h.sorted_callables]
  cases g.topScope.sorted with
  | error cycle => rfl
  | ok main => cases g.callableScope.sorted <;> rfl

section

variable {order : List BlockId} (ho : OrderedScope (g.scopeAt none) order)
include ho

theorem not_mem_order : z.id ∉ order := fun hmem =>
  h.fresh (h.consistent.scopeAt_subset none (ho.perm.mem_iff.mp hmem))

/-- **The new block is a chain of its own.** -/
theorem chains_top : (g'.scopeAt none).chains (order ++ [z.id]) =
    (g.scopeAt none).chains order ++ [⟨z.id, []⟩] := by
  have hold : order.foldl (g'.scopeAt none).addToChains [] = (g.scopeAt none).chains order := by
    refine foldl_congr_front fun front x back hsplit => ?_
    have hperm := ho.perm
    have hord := ho.ordered
    rw [hsplit] at hperm hord
    exact (h.agree none).addToChains_of_longer (by simp [h.ids_top])
      (Scope.chainsSoFar hperm hord).runs (hperm.mem_iff.mp (by simp))
  have hfree : z.id ∉ ((g.scopeAt none).chains order).flatMap Chain.members := fun hmem =>
    h.not_mem_order ho (ho.mem_chains_iff.mp hmem).1
  rw [Scope.chains, List.foldl_append, hold]
  exact Scope.addToChains_of_not_refers (by simpa using h.not_refers)
    (by simpa using h.isControlFlow_new) hfree

/-- **The new block is a statement of its own.** -/
theorem statements_top : (g'.scopeAt none).statements (order ++ [z.id]) =
    (g.scopeAt none).statements order ++ [.chain ⟨z.id, []⟩] := by
  have hchains := h.chains_top ho
  have hold : order.foldl (addStatement g' ((g'.scopeAt none).chains (order ++ [z.id]))) [] =
      (g.scopeAt none).statements order := by
    rw [Scope.statements, statements, Index.scopeAt_index]
    refine List.foldl_ext _ _ _ fun sts id hid => ?_
    have hother : z.id ≠ id := fun heq => h.not_mem_order ho (heq ▸ hid)
    simp [addStatement, h.isControlFlow, hchains, Chain.members, hother.symm]
  have hnew : (((g.scopeAt none).statements order).flatMap Statement.members).contains z.id =
      false := by
    rw [List.contains_eq_mem, decide_eq_false_iff_not, ho.perm_members.mem_iff]
    exact h.not_mem_order ho
  have hfind : ((g'.scopeAt none).chains (order ++ [z.id])).find? (·.members.contains z.id) =
      some ⟨z.id, []⟩ := by
    have hnone : ((g.scopeAt none).chains order).find? (·.members.contains z.id) = none := by
      refine List.find?_eq_none.mpr fun c hc hmem => h.not_mem_order ho ?_
      exact (ho.mem_chains_iff.mp (List.mem_flatMap.mpr ⟨c, hc, by simpa using hmem⟩)).1
    rw [hchains, List.find?_append, hnone]
    simp [Chain.members]
  rw [Scope.statements, statements, Index.scopeAt_index, List.foldl_append, hold]
  simp only [List.foldl_cons, List.foldl_nil, addStatement, hnew, Bool.false_eq_true, if_false,
    h.isControlFlow_new, hfind]

end

/-! ### Names -/

theorem filterMap_block? {ids : List BlockId} (hids : ids ⊆ g.ids) :
    ids.filterMap g'.block? = ids.filterMap g.block? :=
  List.filterMap_congr fun _ hid => h.block?_of_mem (hids hid)

theorem bindChain (P : Option Place) (state : Binder.State) {c : Chain} (hc : c.members ⊆ g.ids) :
    Binder.bindChain (g'.scopeAt P) state c = Binder.bindChain (g.scopeAt P) state c := by
  simp only [Binder.bindChain, (h.agree P).chainNeedsName, Index.scopeAt_index,
    h.block?_of_mem (hc c.terminal_mem), h.filterMap_block? hc]

theorem bindContainer (P : Option Place) (state : Binder.State) {id : BlockId} (hid : id ∈ g.ids) :
    Binder.bindContainer (g'.scopeAt P) state id = Binder.bindContainer (g.scopeAt P) state id := by
  simp only [Binder.bindContainer, (h.agree P).containerNeedsName, Index.scopeAt_index,
    h.block?_of_mem hid]

theorem bindScope {P : Option Place} {order : List BlockId}
    (ho : OrderedScope (g.scopeAt P) order) (b : Binder) :
    b.bindScope (g'.scopeAt P) ((g.scopeAt P).chains order) order =
      b.bindScope (g.scopeAt P) ((g.scopeAt P).chains order) order := by
  have hinside : order ⊆ g.ids := fun id hid =>
    h.consistent.scopeAt_subset P (ho.perm.mem_iff.mp hid)
  have hchains : ((g.scopeAt P).chains order).foldl (Binder.bindChain (g'.scopeAt P)) ([], b) =
      ((g.scopeAt P).chains order).foldl (Binder.bindChain (g.scopeAt P)) ([], b) := by
    refine List.foldl_ext _ _ _ fun state c hc => h.bindChain P state fun u hu => ?_
    exact hinside (ho.mem_chains_iff.mp (List.mem_flatMap.mpr ⟨c, hc, hu⟩)).1
  rw [Binder.bindScope, Binder.bindScope, hchains]
  exact List.foldl_ext _ _ _ fun state id hid => h.bindContainer P state (hinside hid)

/-- The new block takes no name. -/
theorem bindScope_top {order : List BlockId} (ho : OrderedScope (g.scopeAt none) order)
    (b : Binder) : b.bindScope (g'.scopeAt none) ((g'.scopeAt none).chains (order ++ [z.id]))
      (order ++ [z.id]) = b.bindScope (g.scopeAt none) ((g.scopeAt none).chains order) order := by
  have hchain : ∀ state, Binder.bindChain (g'.scopeAt none) state ⟨z.id, []⟩ = state := by
    intro state
    have hunread := Scope.chainNeedsName_of_not_refers (s := g'.scopeAt none)
      (by simpa using h.not_refers)
    rw [Binder.bindChain, hunread]
  have hcontainer : ∀ state, Binder.bindContainer (g'.scopeAt none) state z.id = state := by
    intro state
    simp [Binder.bindContainer, h.block?_new, Block.isControlFlow, Block.isContainer, h.leaf]
  rw [h.chains_top ho, ← h.bindScope ho, Binder.bindScope, Binder.bindScope, List.foldl_append,
    List.foldl_append]
  simp only [List.foldl_cons, List.foldl_nil, hchain, hcontainer]

/-- **No scope gives other names.** -/
theorem nameScope (names : Binder × Table) (P : Option Place) :
    g'.nameScope names P = g.nameScope names P := by
  cases hsorted : (g.scopeAt P).sorted with
  | error cycle =>
    have hsorted' : (g'.scopeAt P).sorted = .error cycle := by
      cases P with
      | none => rw [h.sorted_top, hsorted]; rfl
      | some place => rw [h.sorted_zone, hsorted]
    rw [Index.nameScope, Index.nameScope, hsorted, hsorted']
  | ok order =>
    have ho := h.consistent.orderedScope hsorted
    rw [Index.nameScope_of_sorted hsorted]
    cases P with
    | none =>
      have hsorted' : (g'.scopeAt none).sorted = .ok (order ++ [z.id]) := by
        rw [h.sorted_top, hsorted]
        rfl
      rw [Index.nameScope_of_sorted hsorted', h.bindScope_top ho]
    | some place =>
      rw [Index.nameScope_of_sorted ((h.sorted_zone place).trans hsorted), h.chains_zone,
        h.bindScope ho]

theorem namesAfter (b : Binder) (scopes : List (Option Place)) :
    g'.namesAfter b scopes = g.namesAfter b scopes := by
  rw [Index.namesAfter, Index.namesAfter, funext₂ h.nameScope]

theorem nameOf_new (b : Binder) (scopes : List (Option Place)) :
    (g.namesAfter b scopes).2.nameOf z.id = none := by
  rw [← Option.not_isSome_iff_eq_none, h.consistent.isSome_nameOf_namesAfter]
  exact fun hnamed => h.fresh hnamed.1

/-! ### The scopes that are written -/

theorem branches (block : Block) (target : Option String) (source : Option Source) :
    Emit.branches g' block target source = Emit.branches g block target source := by
  simp only [Emit.branches, h.zoneChildren]

theorem statementZones {st : Statement} (hst : st.members ⊆ g.ids) :
    g'.statementZones st = g.statementZones st := by
  cases st with
  | chain c => rfl
  | container id =>
    simp only [Index.statementZones, h.block?_of_mem (hst List.mem_cons_self), Index.branchZones,
      h.branches]

/-- The blocks of a statement are blocks of the graph. -/
theorem members_subset {P : Option Place} {order : List BlockId}
    (ho : OrderedScope (g.scopeAt P) order) {st : Statement}
    (hst : st ∈ (g.scopeAt P).statements order) : st.members ⊆ g.ids := fun _ hid =>
  h.consistent.scopeAt_subset P
    (ho.perm.mem_iff.mp (ho.perm_members.mem_iff.mp (List.mem_flatMap.mpr ⟨st, hst, hid⟩)))

theorem zonesOf_zone {place : Place} {order : List BlockId}
    (ho : OrderedScope (g.scopeAt (some place)) order) :
    g'.zonesOf (some place) order = g.zonesOf (some place) order := by
  rw [Index.zonesOf, Index.zonesOf, h.statements_zone]
  exact List.flatMap_congr fun st hst => h.statementZones (h.members_subset ho hst)

theorem zonesOf_top {order : List BlockId} (ho : OrderedScope (g.scopeAt none) order) :
    g'.zonesOf none (order ++ [z.id]) = g.zonesOf none order := by
  have hold : ((g.scopeAt none).statements order).flatMap g'.statementZones =
      g.zonesOf none order :=
    List.flatMap_congr fun st hst => h.statementZones (h.members_subset ho hst)
  rw [Index.zonesOf, h.statements_top ho, List.flatMap_append, hold]
  simp [Index.statementZones]

/-- A zone of a scope has its container in the graph and lies one level further in. -/
theorem inner_zone {P : Option Place} {order : List BlockId}
    (ho : OrderedScope (g.scopeAt P) order) {inner : Place} (hinner : inner ∈ g.zonesOf P order) :
    inner.container ∈ g.ids ∧ g.depth (some inner) = g.depth P + 1 := by
  obtain ⟨hid, -⟩ := (Index.mem_zonesOf ho).mp hinner
  obtain ⟨hmem, hparent⟩ := h.consistent.mem_scopeAt.mp hid
  exact ⟨hmem, by rw [h.consistent.depth_zone, hparent]⟩

/-- One level more than there are blocks around the zone changes nothing. -/
theorem scopesIn {depth : Nat} {place : Place} (hcontainer : place.container ∈ g.ids)
    (hlevels : g.blocks.length < depth + g.depth (some place)) :
    g'.scopesIn (depth + 1) place = g.scopesIn depth place := by
  induction depth generalizing place with
  | zero =>
    have : g.depth (some place) ≤ g.blocks.length :=
      h.consistent.depth_zone_le hcontainer place.zone
    omega
  | succ depth ih =>
    have hids : (g'.zoneScope place).ids = (g.zoneScope place).ids := h.ids_zone place
    have hsort : (g'.zoneScope place).sorted = (g.zoneScope place).sorted := h.sorted_zone place
    rw [Index.scopesIn, Index.scopesIn, hids, hsort]
    split
    · rfl
    · cases hsorted : (g.zoneScope place).sorted with
      | error cycle => rfl
      | ok order =>
        have ho : OrderedScope (g.scopeAt (some place)) order := h.consistent.orderedScope hsorted
        simp only [h.zonesOf_zone ho]
        refine congrArg _ (List.flatMap_congr fun inner hinner => ?_)
        obtain ⟨hmem, hdepth⟩ := h.inner_zone ho hinner
        exact ih hmem (by omega)

theorem length_blocks : g'.blocks.length = g.blocks.length + 1 := by simp [h.blocks]

theorem scopesIn_all {place : Place} (hcontainer : place.container ∈ g.ids) :
    g'.scopesIn g'.blocks.length place = g.scopesIn g.blocks.length place := by
  rw [h.length_blocks]
  exact h.scopesIn hcontainer (by simp [Index.depth])

/-- **The names of a script stay.**  A top level that was empty is a scope to write now, and gives
no names. -/
theorem namesAfter_written {functions main : List BlockId} (ho : g.Ordering functions main)
    (b : Binder) : g'.namesAfter b (g'.written functions (main ++ [z.id])) =
      g.namesAfter b (g.written functions main) := by
  have hfunctions : functions.flatMap (fun id => g'.scopesIn g'.blocks.length ⟨id, .body⟩) =
      functions.flatMap fun id => g.scopesIn g.blocks.length ⟨id, .body⟩ :=
    List.flatMap_congr fun id hid => h.scopesIn_all (ho.functions_subset hid)
  have hzones : (g'.zonesOf none (main ++ [z.id])).flatMap (g'.scopesIn g'.blocks.length) =
      (g.zonesOf none main).flatMap (g.scopesIn g.blocks.length) := by
    rw [h.zonesOf_top ho.orderedTop]
    exact List.flatMap_congr fun inner hinner =>
      h.scopesIn_all (h.inner_zone ho.orderedTop hinner).1
  rw [h.namesAfter, Index.written, Index.written, hfunctions, hzones]
  cases main with
  | cons id main => rfl
  | nil =>
    -- the top level comes up as one more scope, at the end
    have hnone : ∀ names, g.nameScope names none = names := by
      intro names
      rw [Index.nameScope_of_sorted ho.top]
      rfl
    simp [Index.zonesOf, statements, Index.namesAfter_concat, hnone]

end Index.Adds

end BlockScript
