import BlockScript.Proofs.Layout

/-!
# Scopes that answer alike

The queries of a scope ask which of its blocks a connection leads to, which blocks lie around
another one, and what kind a block is.  Two scopes, perhaps of different graphs, `Scope.Agree` when
their graphs have the same connections, the same nesting and the same kinds of blocks, and they hold
the same of those blocks that a connection or the nesting refers to.  Then the queries have the same
answers, and with the same blocks in them the scopes have the same orders, chains and statements.
-/

namespace BlockScript

open Emit

/-- A connection leads from or to the block, or another block lies in it. -/
def Index.Refers (g : Index) (id : BlockId) : Prop :=
  (∃ c ∈ g.connections, c.source = id ∨ c.target = id) ∨ ∃ n, id ∈ g.ancestors n

/-- The scopes have the same answers to all questions about producers and consumers. -/
structure Scope.Agree (s s' : Scope) : Prop where
  connections : s'.index.connections = s.index.connections
  ancestors : ∀ id, s'.index.ancestors id = s.index.ancestors id
  isControlFlow : ∀ id, s'.index.isControlFlow id = s.index.isControlFlow id
  isCallable : ∀ id, s'.index.isCallable id = s.index.isCallable id
  contains : ∀ id, s.index.Refers id → s'.contains id = s.contains id

namespace Scope.Agree

variable {s s' : Scope} (h : s.Agree s')
include h

theorem contains_source {c : Connection} (hc : c ∈ s.index.connections) :
    s'.contains c.source = s.contains c.source :=
  h.contains _ (Or.inl ⟨c, hc, Or.inl rfl⟩)

theorem contains_target {c : Connection} (hc : c ∈ s.index.connections) :
    s'.contains c.target = s.contains c.target :=
  h.contains _ (Or.inl ⟨c, hc, Or.inr rfl⟩)

theorem incoming (id : BlockId) : s'.incoming id = s.incoming id := by
  rw [Scope.incoming, Scope.incoming, Index.incoming, Index.incoming, h.connections]
  exact List.filter_congr fun c hc => h.contains_source (List.mem_of_mem_filter hc)

theorem outgoing (id : BlockId) : s'.outgoing id = s.outgoing id := by
  rw [Scope.outgoing, Scope.outgoing, Index.outgoing, Index.outgoing, h.connections]
  exact List.filter_congr fun c hc => h.contains_target (List.mem_of_mem_filter hc)

theorem predecessors (id : BlockId) : s'.predecessors id = s.predecessors id := by
  rw [Scope.predecessors, Scope.predecessors, h.incoming]

theorem successors (id : BlockId) : s'.successors id = s.successors id := by
  rw [Scope.successors, Scope.successors, h.outgoing]

theorem producers (id : BlockId) : s'.producers id = s.producers id := by
  have hexternal : s'.externalProducers id = s.externalProducers id := by
    rw [Scope.externalProducers, Scope.externalProducers, Index.incoming, Index.incoming,
      h.connections]
    refine congrArg List.eraseDups (List.filter_congr fun p hp => ?_)
    obtain ⟨c, hc, rfl⟩ := List.mem_map.mp hp
    rw [h.contains_source (List.mem_of_mem_filter hc)]
  rw [Scope.producers, Scope.producers, h.predecessors, hexternal]

theorem reachesInward (producer consumer : BlockId) :
    s'.reachesInward producer consumer = s.reachesInward producer consumer := by
  have hupTo : ∀ l : List BlockId, (∀ id ∈ l, s'.contains id = s.contains id) →
      upTo? s'.contains l = upTo? s.contains l := by
    intro l
    induction l with
    | nil => exact fun _ => rfl
    | cons id l ih =>
      intro hl
      rw [upTo?, upTo?, hl id List.mem_cons_self, ih fun x hx => hl x (List.mem_cons_of_mem _ hx)]
  have hancestors := hupTo (s.index.ancestors consumer) fun id hid =>
    h.contains id (Or.inr ⟨consumer, hid⟩)
  simp only [Scope.reachesInward, h.ancestors, hancestors, funext h.isCallable]

theorem hasNestedConsumers (id : BlockId) : s'.hasNestedConsumers id = s.hasNestedConsumers id := by
  have hnested : s'.nestedConsumers id = s.nestedConsumers id := by
    rw [Scope.nestedConsumers, Scope.nestedConsumers, Index.outgoing, Index.outgoing,
      h.connections, funext (h.reachesInward id)]
    refine congrArg (fun l : List BlockId => (l.filter _).eraseDups)
      (List.filter_congr fun t ht => ?_)
    obtain ⟨c, hc, rfl⟩ := List.mem_map.mp ht
    rw [h.contains_target (List.mem_of_mem_filter hc)]
  rw [Scope.hasNestedConsumers, Scope.hasNestedConsumers, hnested]

theorem feedsControlFlow (id : BlockId) : s'.feedsControlFlow id = s.feedsControlFlow id := by
  rw [Scope.feedsControlFlow, Scope.feedsControlFlow, h.successors, funext h.isControlFlow]

theorem dependencies : s'.dependencies = s.dependencies := by
  funext id
  have hread : s'.readInside id = s.readInside id := by
    rw [Scope.readInside, Scope.readInside, h.connections]
    refine congrArg (List.map _) (List.filter_congr fun c hc => ?_)
    rw [h.contains_source hc, h.ancestors]
  rw [Scope.dependencies, Scope.dependencies, h.incoming, hread]

/-! ### Chains -/

theorem nextStage? (assigned : List BlockId) (current : BlockId) :
    s'.nextStage? assigned current = s.nextStage? assigned current := by
  simp only [Scope.nextStage?, h.hasNestedConsumers, Scope.singleSuccessor?, h.successors,
    h.isControlFlow, h.incoming]

theorem stagesAfter (fuel : Nat) (assigned : List BlockId) (current : BlockId) :
    s'.stagesAfter fuel assigned current = s.stagesAfter fuel assigned current := by
  induction fuel generalizing assigned current with
  | zero => rfl
  | succ fuel ih => simp only [Scope.stagesAfter, h.nextStage?, ih]

theorem continuesChain (id : BlockId) : s'.continuesChain id = s.continuesChain id := by
  rw [Scope.continuesChain, Scope.continuesChain, Scope.uniquePredecessor?,
    Scope.uniquePredecessor?, h.predecessors]
  cases Scope.only? (s.predecessors id) with
  | none => rfl
  | some p => simp only [h.isControlFlow, h.outgoing, h.hasNestedConsumers]

/-! ### Names that are needed -/

theorem chainNeedsName (c : Chain) : Binder.chainNeedsName s' c = Binder.chainNeedsName s c := by
  simp only [Binder.chainNeedsName, h.outgoing, h.feedsControlFlow, h.hasNestedConsumers]

theorem containerNeedsName (id : BlockId) :
    Binder.containerNeedsName s' id = Binder.containerNeedsName s id := by
  simp only [Binder.containerNeedsName, h.outgoing, h.hasNestedConsumers]

/-! ### Scopes with the same blocks -/

variable (hids : s'.ids = s.ids)
include hids

theorem sorted : s'.sorted = s.sorted := by
  rw [Scope.sorted, Scope.sorted, h.dependencies, hids]

theorem chains (order : List BlockId) : s'.chains order = s.chains order := by
  have hadd : s'.addToChains = s.addToChains := by
    funext chains id
    simp only [Scope.addToChains, h.isControlFlow, h.continuesChain, h.stagesAfter, hids]
  rw [Scope.chains, Scope.chains, hadd]

theorem statements (order : List BlockId) : s'.statements order = s.statements order := by
  have hadd : addStatement s'.index (s.chains order) = addStatement s.index (s.chains order) := by
    funext statements id
    simp only [addStatement, h.isControlFlow]
  rw [Scope.statements, Scope.statements, Emit.statements, Emit.statements, h.chains hids, hadd]

end Scope.Agree

end BlockScript
