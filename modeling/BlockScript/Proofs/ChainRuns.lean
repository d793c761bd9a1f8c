import BlockScript.Proofs.DependencyOrder
import BlockScript.Scope.Chain
import Mathlib.Data.List.Chain

/-!
# Chains are the one-to-one runs of a scope

`Scope.Streams u v` says that `u` and `v` are neighbours in a pipeline: one connection leads
from `u` to `v`, it is the only one out of `u` and the only one into `v`, nobody further in reads
`u`, and neither is a control-flow container.  A block streams into one block at most, and one
block at most streams into it.

The test that lets a chain go on and the test that keeps a block from starting one are written
with different counts.  Both say `Streams` (`nextStage?_eq_some_iff`, `continuesChain_iff`), so
the chains of an ordered scope are exactly its runs (`Runs`, `runs_chains`): no chain can be made
longer at either end, and every block that is no control-flow container is in one of them.
-/

namespace BlockScript

namespace Scope

variable {s : Scope}

/-! ### Connections of a scope -/

theorem mem_incoming {id : BlockId} {c : Connection} :
    c ∈ s.incoming id ↔ c ∈ s.index.connections ∧ c.target = id ∧ c.source ∈ s.ids := by
  simp only [incoming, Index.incoming, List.mem_filter, contains, List.contains_iff_mem, beq_iff_eq,
    and_assoc]

theorem mem_outgoing {id : BlockId} {c : Connection} :
    c ∈ s.outgoing id ↔ c ∈ s.index.connections ∧ c.source = id ∧ c.target ∈ s.ids := by
  simp only [outgoing, Index.outgoing, List.mem_filter, contains, List.contains_iff_mem, beq_iff_eq,
    and_assoc]

/-- Where all that goes out of `u` goes to `v`, it is part of what comes into `v`. -/
theorem outgoing_sublist_incoming {u v : BlockId} (hu : u ∈ s.ids)
    (h : ∀ c ∈ s.outgoing u, c.target = v) : (s.outgoing u).Sublist (s.incoming v) := by
  have heq : s.outgoing u = (s.outgoing u).filter fun c => c.target == v := by
    rw [eq_comm, List.filter_eq_self]
    exact fun c hc => by simpa using h c hc
  rw [heq, outgoing, Index.outgoing, incoming, Index.incoming, List.filter_filter,
    List.filter_filter, List.filter_filter]
  refine List.monotone_filter_right _ ?_
  intro c hc
  simp only [Bool.and_eq_true, beq_iff_eq, contains, List.contains_iff_mem] at hc ⊢
  exact ⟨hc.2 ▸ hu, hc.1.1⟩

theorem incoming_sublist_outgoing {u v : BlockId} (hv : v ∈ s.ids)
    (h : ∀ c ∈ s.incoming v, c.source = u) : (s.incoming v).Sublist (s.outgoing u) := by
  have heq : s.incoming v = (s.incoming v).filter fun c => c.source == u := by
    rw [eq_comm, List.filter_eq_self]
    exact fun c hc => by simpa using h c hc
  rw [heq, outgoing, Index.outgoing, incoming, Index.incoming, List.filter_filter,
    List.filter_filter, List.filter_filter]
  refine List.monotone_filter_right _ ?_
  intro c hc
  simp only [Bool.and_eq_true, beq_iff_eq, contains, List.contains_iff_mem] at hc ⊢
  exact ⟨hc.2 ▸ hv, hc.1.1⟩

theorem eq_singleton_of_sublist {α : Type} {l : List α} {a : α} (h : l.Sublist [a])
    (hne : l ≠ []) : l = [a] := by
  rcases List.sublist_singleton.mp h with rfl | rfl
  · exact absurd rfl hne
  · rfl

/-! ### Streaming -/

/-- `u` and `v` are neighbours in a pipeline. -/
structure Streams (s : Scope) (u v : BlockId) : Prop where
  joined : ∃ c, s.outgoing u = [c] ∧ s.incoming v = [c]
  unread : s.hasNestedConsumers u = false
  left_plain : s.index.isControlFlow u = false
  right_plain : s.index.isControlFlow v = false

theorem Streams.connection {u v : BlockId} (h : s.Streams u v) :
    ∃ c ∈ s.index.connections, c.source = u ∧ c.target = v ∧ u ∈ s.ids ∧ v ∈ s.ids := by
  obtain ⟨c, hout, hin⟩ := h.joined
  obtain ⟨hc, hsource, htarget⟩ := mem_outgoing.mp (by rw [hout]; simp : c ∈ s.outgoing u)
  obtain ⟨-, htarget', hsource'⟩ := mem_incoming.mp (by rw [hin]; simp : c ∈ s.incoming v)
  exact ⟨c, hc, hsource, htarget', hsource ▸ hsource', htarget' ▸ htarget⟩

theorem Streams.right_mem {u v : BlockId} (h : s.Streams u v) : v ∈ s.ids := by
  obtain ⟨c, -, -, -, -, hv⟩ := h.connection
  exact hv

theorem Streams.right_unique {u v w : BlockId} (hv : s.Streams u v) (hw : s.Streams u w) :
    v = w := by
  obtain ⟨c, hout, hin⟩ := hv.joined
  obtain ⟨d, hout', hin'⟩ := hw.joined
  obtain rfl : c = d := by simpa [hout] using hout'
  have hcv := (mem_incoming.mp (by rw [hin]; simp : c ∈ s.incoming v)).2.1
  have hcw := (mem_incoming.mp (by rw [hin']; simp : c ∈ s.incoming w)).2.1
  exact hcv.symm.trans hcw

theorem Streams.left_unique {u v w : BlockId} (hu : s.Streams u w) (hv : s.Streams v w) :
    u = v := by
  obtain ⟨c, hout, hin⟩ := hu.joined
  obtain ⟨d, hout', hin'⟩ := hv.joined
  obtain rfl : c = d := by simpa [hin] using hin'
  have hcu := (mem_outgoing.mp (by rw [hout]; simp : c ∈ s.outgoing u)).2.1
  have hcv := (mem_outgoing.mp (by rw [hout']; simp : c ∈ s.outgoing v)).2.1
  exact hcu.symm.trans hcv

theorem Streams.mem_dependencies {u v : BlockId} (h : s.Streams u v) : u ∈ s.dependencies v := by
  obtain ⟨c, hc, hsource, htarget, hu, -⟩ := h.connection
  exact Scope.mem_dependencies.mpr ⟨hu, c, hc, hsource, Or.inl htarget⟩

/-! ### The two tests -/

theorem singleSuccessor?_eq_some_iff {u v : BlockId} : s.singleSuccessor? u = some v ↔
    s.outgoing u ≠ [] ∧ ∀ c ∈ s.outgoing u, c.target = v := by
  rw [singleSuccessor?, only?_eq_some_iff, successors, eraseDups_eq_singleton_iff]
  simp

theorem uniquePredecessor?_eq_some_iff {u v : BlockId} : s.uniquePredecessor? v = some u ↔
    s.incoming v ≠ [] ∧ ∀ c ∈ s.incoming v, c.source = u := by
  rw [uniquePredecessor?, only?_eq_some_iff, predecessors, eraseDups_eq_singleton_iff]
  simp

/-- **A chain goes on** where its last block streams into a block that is not taken. -/
theorem nextStage?_eq_some_iff {assigned : List BlockId} {u v : BlockId} (hu : u ∈ s.ids)
    (hplain : s.index.isControlFlow u = false) :
    s.nextStage? assigned u = some v ↔ s.Streams u v ∧ v ∉ assigned := by
  have hcount : (s.outgoing u ≠ [] ∧ ∀ c ∈ s.outgoing u, c.target = v) ∧
      (s.incoming v).length = 1 ↔ ∃ c, s.outgoing u = [c] ∧ s.incoming v = [c] := by
    constructor
    · rintro ⟨⟨hne, htarget⟩, hlen⟩
      obtain ⟨c, hc⟩ := List.length_eq_one_iff.mp hlen
      have hsub := outgoing_sublist_incoming hu htarget
      rw [hc] at hsub
      exact ⟨c, eq_singleton_of_sublist hsub hne, hc⟩
    · rintro ⟨c, hout, hin⟩
      have htarget := (mem_incoming.mp (by rw [hin]; simp : c ∈ s.incoming v)).2.1
      exact ⟨⟨by simp [hout], by simp [hout, htarget]⟩, by simp [hin]⟩
  by_cases hnest : s.hasNestedConsumers u
  · simp only [nextStage?, if_pos hnest, reduceCtorEq, false_iff]
    rintro ⟨hstreams, -⟩
    rw [hstreams.unread] at hnest
    cases hnest
  · rw [Bool.not_eq_true] at hnest
    simp only [nextStage?, hnest, Bool.false_eq_true, if_false, Option.filter_eq_some_iff,
      singleSuccessor?_eq_some_iff, Bool.and_eq_true, Bool.not_eq_true', beq_iff_eq,
      List.contains_eq_mem, decide_eq_false_iff_not]
    constructor
    · rintro ⟨hsingle, ⟨hfree, hcf⟩, hlen⟩
      exact ⟨⟨hcount.mp ⟨hsingle, hlen⟩, hnest, hplain, hcf⟩, hfree⟩
    · rintro ⟨hstreams, hfree⟩
      obtain ⟨hsingle, hlen⟩ := hcount.mpr hstreams.joined
      exact ⟨hsingle, ⟨hfree, hstreams.right_plain⟩, hlen⟩

/-- **A block belongs behind its producer** where some block streams into it. -/
theorem continuesChain_iff {v : BlockId} (hv : v ∈ s.ids)
    (hplain : s.index.isControlFlow v = false) :
    s.continuesChain v ↔ ∃ u, s.Streams u v := by
  constructor
  · intro h
    cases hp : s.uniquePredecessor? v with
    | none => simp [continuesChain, hp] at h
    | some u =>
      simp only [continuesChain, hp, Bool.and_eq_true, Bool.not_eq_true', beq_iff_eq] at h
      obtain ⟨⟨hcf, hlen⟩, hnest⟩ := h
      obtain ⟨hne, hsource⟩ := uniquePredecessor?_eq_some_iff.mp hp
      obtain ⟨c, hc⟩ := List.length_eq_one_iff.mp hlen
      have hsub := incoming_sublist_outgoing hv hsource
      rw [hc] at hsub
      exact ⟨u, ⟨c, hc, eq_singleton_of_sublist hsub hne⟩, hnest, hcf, hplain⟩
  · rintro ⟨u, hstreams⟩
    obtain ⟨c, hout, hin⟩ := hstreams.joined
    have hsource := (mem_outgoing.mp (by rw [hout]; simp : c ∈ s.outgoing u)).2.1
    have hp : s.uniquePredecessor? v = some u :=
      uniquePredecessor?_eq_some_iff.mpr ⟨by simp [hin], by simp [hin, hsource]⟩
    simp [continuesChain, hp, hstreams.left_plain, hout, hstreams.unread]

/-! ### Growing a chain -/

/-- **The stages after a block** stream into each other and are new; when they end before the
bound does, the last one streams into nothing new. -/
theorem stagesAfter_spec {fuel : Nat} {assigned : List BlockId} {u : BlockId} (hu : u ∈ s.ids)
    (hplain : s.index.isControlFlow u = false) :
    (u :: s.stagesAfter fuel assigned u).IsChain s.Streams ∧
      (s.stagesAfter fuel assigned u).Nodup ∧
      (∀ v ∈ s.stagesAfter fuel assigned u, v ∉ assigned) ∧
      ((s.stagesAfter fuel assigned u).length < fuel →
        ∀ v, s.Streams ((s.stagesAfter fuel assigned u).getLast?.getD u) v →
          v ∈ assigned ∨ v ∈ s.stagesAfter fuel assigned u) := by
  induction fuel generalizing assigned u with
  | zero => simp [stagesAfter]
  | succ fuel ih =>
    cases hnext : s.nextStage? assigned u with
    | none =>
      simp only [stagesAfter, hnext]
      refine ⟨List.isChain_singleton u, List.nodup_nil, by simp, ?_⟩
      intro _ v hv
      by_contra hfree
      rw [not_or] at hfree
      have := (nextStage?_eq_some_iff hu hplain).mpr ⟨hv, hfree.1⟩
      rw [hnext] at this
      cases this
    | some next =>
      obtain ⟨hstreams, hfree⟩ := (nextStage?_eq_some_iff hu hplain).mp hnext
      obtain ⟨hchain, hnodup, hnew, hend⟩ :=
        @ih (next :: assigned) next hstreams.right_mem hstreams.right_plain
      simp only [stagesAfter, hnext]
      refine ⟨List.isChain_cons_cons.mpr ⟨hstreams, hchain⟩, ?_, ?_, ?_⟩
      · refine List.nodup_cons.mpr ⟨fun hmem => ?_, hnodup⟩
        exact hnew next hmem (by simp)
      · intro v hv
        rcases List.mem_cons.mp hv with rfl | hv
        · exact hfree
        · exact fun hmem => hnew v hv (List.mem_cons_of_mem _ hmem)
      · intro hlen v hv
        rw [List.getLast?_cons, Option.getD_some] at hv
        rw [List.length_cons] at hlen
        rcases hend (by omega) v hv with hmem | hmem
        · rcases List.mem_cons.mp hmem with rfl | hmem
          · exact Or.inr (by simp)
          · exact Or.inl hmem
        · exact Or.inr (List.mem_cons_of_mem _ hmem)

end Scope

theorem Chain.getLast?_members (c : Chain) : c.members.getLast? = some c.terminal :=
  List.getLast?_cons

theorem Chain.terminal_mem (c : Chain) : c.terminal ∈ c.members :=
  List.mem_of_getLast? c.getLast?_members

theorem Chain.head_mem (c : Chain) : c.head ∈ c.members := List.mem_cons_self

namespace Scope

variable {s : Scope}

/-- In a run, what streams into a later block is the block before it. -/
theorem split_of_streams_right {c : Chain} (hlinked : c.members.IsChain s.Streams)
    (hhead : ∀ u, ¬ s.Streams u c.head) {u v : BlockId} (hv : v ∈ c.members)
    (h : s.Streams u v) : ∃ l₁ l₂, c.members = l₁ ++ u :: v :: l₂ := by
  obtain ⟨l₁, l₂, hsplit⟩ := List.append_of_mem hv
  rcases List.eq_nil_or_concat l₁ with rfl | ⟨l₁', w, rfl⟩
  · obtain rfl : c.head = v := (List.cons.inj hsplit).1
    exact absurd h (hhead u)
  · have hsplit' : c.members = l₁' ++ w :: v :: l₂ := by simpa using hsplit
    rw [hsplit', List.isChain_append_cons_cons] at hlinked
    obtain rfl := h.left_unique hlinked.2.1
    exact ⟨l₁', l₂, hsplit'⟩

/-- In a run, what an earlier block streams into is the block after it. -/
theorem split_of_streams_left {c : Chain} (hlinked : c.members.IsChain s.Streams)
    (hend : ∀ v, ¬ s.Streams c.terminal v) {u v : BlockId} (hu : u ∈ c.members)
    (h : s.Streams u v) : ∃ l₁ l₂, c.members = l₁ ++ u :: v :: l₂ := by
  obtain ⟨l₁, l₂, hsplit⟩ := List.append_of_mem hu
  cases l₂ with
  | nil =>
    have hlast := c.getLast?_members
    rw [hsplit, List.getLast?_concat] at hlast
    rw [Option.some.inj hlast] at h
    exact absurd h (hend v)
  | cons w l₂ =>
    rw [hsplit, List.isChain_append_cons_cons] at hlinked
    obtain rfl := h.right_unique hlinked.2.1
    exact ⟨l₁, l₂, hsplit⟩

/-- A run that starts with a plain block of the scope has only such blocks. -/
theorem inside_of_linked {c : Chain} (hlinked : c.members.IsChain s.Streams) (hx : c.head ∈ s.ids)
    (hplain : s.index.isControlFlow c.head = false) :
    ∀ v ∈ c.members, v ∈ s.ids ∧ s.index.isControlFlow v = false := by
  intro v hv
  obtain ⟨l₁, l₂, hsplit⟩ := List.append_of_mem hv
  rcases List.eq_nil_or_concat l₁ with rfl | ⟨l₁', w, rfl⟩
  · obtain rfl : c.head = v := (List.cons.inj hsplit).1
    exact ⟨hx, hplain⟩
  · have hsplit' : c.members = l₁' ++ w :: v :: l₂ := by simpa using hsplit
    rw [hsplit', List.isChain_append_cons_cons] at hlinked
    exact ⟨hlinked.2.1.right_mem, hlinked.2.1.right_plain⟩

/-- The last block of a run streams into none of its blocks: it would stand before that block. -/
theorem not_streams_terminal {c : Chain} (hlinked : c.members.IsChain s.Streams)
    (hhead : ∀ u, ¬ s.Streams u c.head) (hnodup : c.members.Nodup) {v : BlockId}
    (hv : v ∈ c.members) : ¬ s.Streams c.terminal v := by
  intro hstreams
  obtain ⟨l₁, l₂, hsplit⟩ := split_of_streams_right hlinked hhead hv hstreams
  have hlast := c.getLast?_members
  rw [hsplit, List.getLast?_append_cons, List.getLast?_cons_cons] at hlast
  rw [hsplit, List.nodup_append, List.nodup_cons] at hnodup
  exact hnodup.2.1.1 (List.mem_of_getLast? hlast)

/-- The chains are runs of the scope that cannot be made longer, and no two have a block in
common. -/
structure Runs (s : Scope) (chains : List Chain) : Prop where
  nodup : (chains.flatMap Chain.members).Nodup
  inside : ∀ c ∈ chains, ∀ u ∈ c.members, u ∈ s.ids ∧ s.index.isControlFlow u = false
  linked : ∀ c ∈ chains, c.members.IsChain s.Streams
  headed : ∀ c ∈ chains, ∀ u, ¬ s.Streams u c.head
  ended : ∀ c ∈ chains, ∀ v, ¬ s.Streams c.terminal v

theorem runs_nil : s.Runs [] := by constructor <;> simp

/-- A chain grown from a block that nothing streams into is a run of its own. -/
theorem Runs.concat {chains : List Chain} (h : s.Runs chains) {x : BlockId} (hx : x ∈ s.ids)
    (hplain : s.index.isControlFlow x = false) (hfree : x ∉ chains.flatMap Chain.members)
    (hfirst : ∀ u, ¬ s.Streams u x) :
    s.Runs (chains ++
      [⟨x, s.stagesAfter s.ids.length (x :: chains.flatMap Chain.members) x⟩]) := by
  obtain ⟨hchain, htail, hnew, hend⟩ :=
    @stagesAfter_spec s s.ids.length (x :: chains.flatMap Chain.members) x hx hplain
  generalize hT : s.stagesAfter s.ids.length (x :: chains.flatMap Chain.members) x = T at *
  have hnodup : (x :: T).Nodup :=
    List.nodup_cons.mpr ⟨fun hmem => hnew x hmem (by simp), htail⟩
  have hdisj : ∀ v ∈ x :: T, v ∉ chains.flatMap Chain.members := by
    intro v hv hmem
    rcases List.mem_cons.mp hv with rfl | hv
    · exact hfree hmem
    · exact hnew v hv (List.mem_cons_of_mem _ hmem)
  have hinside := @inside_of_linked s ⟨x, T⟩ hchain hx hplain
  have hshort : T.length < s.ids.length := by
    have := (hnodup.subperm fun v hv => (hinside v hv).1).length_le
    rw [List.length_cons] at this
    omega
  have hlast : ∀ v, ¬ s.Streams (Chain.terminal ⟨x, T⟩) v := by
    intro v hv
    rcases hend hshort v hv with hmem | hmem
    · rcases List.mem_cons.mp hmem with rfl | hmem
      · exact hfirst _ hv
      · -- the block before `v` in its chain would be the last one here
        obtain ⟨c, hc, hvc⟩ := List.mem_flatMap.mp hmem
        obtain ⟨l₁, l₂, hsplit⟩ := split_of_streams_right (h.linked c hc) (h.headed c hc) hvc hv
        refine hdisj _ (Chain.terminal_mem ⟨x, T⟩) (List.mem_flatMap.mpr ⟨c, hc, ?_⟩)
        rw [hsplit]
        simp
    · exact @not_streams_terminal s ⟨x, T⟩ hchain hfirst hnodup v (List.mem_cons_of_mem _ hmem) hv
  refine ⟨?_, ?_, ?_, ?_, ?_⟩
  · rw [List.flatMap_append, List.nodup_append]
    refine ⟨h.nodup, by simpa [Chain.members] using hnodup, ?_⟩
    rintro a ha b hb rfl
    exact hdisj a (by simpa [Chain.members] using hb) ha
  all_goals
    intro c hc
    rcases List.mem_append.mp hc with hc | hc
  · exact h.inside c hc
  · obtain rfl := List.mem_singleton.mp hc
    exact hinside
  · exact h.linked c hc
  · obtain rfl := List.mem_singleton.mp hc
    exact hchain
  · exact h.headed c hc
  · obtain rfl := List.mem_singleton.mp hc
    exact hfirst
  · exact h.ended c hc
  · obtain rfl := List.mem_singleton.mp hc
    exact hlast

/-- What is known of the chains when the blocks of `front` have been taken. -/
structure ChainsSoFar (s : Scope) (front : List BlockId) (chains : List Chain) : Prop where
  runs : s.Runs chains
  covered : ∀ u ∈ front, s.index.isControlFlow u = false → u ∈ chains.flatMap Chain.members
  heads : (chains.map Chain.head).Sublist front

/-- Taking one more block.  A block that continues a chain is in that chain already, since its
producer stands before it. -/
theorem ChainsSoFar.add {front : List BlockId} {chains : List Chain}
    (h : s.ChainsSoFar front chains) {x : BlockId} (hx : x ∈ s.ids)
    (hbefore : ∀ d ∈ s.dependencies x, d ∈ front) :
    s.ChainsSoFar (front ++ [x]) (s.addToChains chains x) := by
  have hskip : (s.index.isControlFlow x = false → x ∈ chains.flatMap Chain.members) →
      s.ChainsSoFar (front ++ [x]) chains := by
    intro hcovered
    refine ⟨h.runs, ?_, h.heads.trans (List.sublist_append_left _ _)⟩
    intro u hu hplain
    rcases List.mem_append.mp hu with hu | hu
    · exact h.covered u hu hplain
    · obtain rfl := List.mem_singleton.mp hu
      exact hcovered hplain
  by_cases hmem : x ∈ chains.flatMap Chain.members
  · have : s.addToChains chains x = chains := by simp [addToChains, hmem]
    rw [this]
    exact hskip fun _ => hmem
  · by_cases hcf : s.index.isControlFlow x
    · have : s.addToChains chains x = chains := by simp [addToChains, hcf]
      rw [this]
      exact hskip fun hplain => absurd hcf (by simp [hplain])
    · rw [Bool.not_eq_true] at hcf
      by_cases hcont : s.continuesChain x
      · obtain ⟨u, hu⟩ := (continuesChain_iff hx hcf).mp hcont
        have humem := h.covered u (hbefore u hu.mem_dependencies) hu.left_plain
        obtain ⟨c, hc, huc⟩ := List.mem_flatMap.mp humem
        obtain ⟨l₁, l₂, hsplit⟩ :=
          split_of_streams_left (h.runs.linked c hc) (h.runs.ended c hc) huc hu
        refine absurd (List.mem_flatMap.mpr ⟨c, hc, ?_⟩) hmem
        rw [hsplit]
        simp
      · have hfirst : ∀ u, ¬ s.Streams u x := fun u hu =>
          hcont ((continuesChain_iff hx hcf).mpr ⟨u, hu⟩)
        have heq : s.addToChains chains x = chains ++
            [⟨x, s.stagesAfter s.ids.length (x :: chains.flatMap Chain.members) x⟩] := by
          simp only [addToChains, List.contains_eq_mem, hmem, decide_false, hcf, hcont,
            Bool.or_self, Bool.false_eq_true, if_false]
        rw [heq]
        refine ⟨h.runs.concat hx hcf hmem hfirst, ?_, ?_⟩
        · intro u hu hplain
          rw [List.flatMap_append, List.mem_append]
          rcases List.mem_append.mp hu with hu | hu
          · exact Or.inl (h.covered u hu hplain)
          · obtain rfl := List.mem_singleton.mp hu
            exact Or.inr (by simp [Chain.members])
        · rw [List.map_append]
          exact h.heads.append (List.Sublist.refl _)

/-- What is known of the chains after the first blocks of an ordered scope. -/
theorem chainsSoFar {front back : List BlockId} (hperm : (front ++ back).Perm s.ids)
    (hord : Order.Ordered s.dependencies (front ++ back)) :
    s.ChainsSoFar front (front.foldl s.addToChains []) := by
  induction front using List.reverseRecOn generalizing back with
  | nil => exact ⟨runs_nil, by simp, by simp⟩
  | append_singleton front x ih =>
    have hsplit : front ++ [x] ++ back = front ++ x :: back := by simp
    rw [hsplit] at hperm hord
    rw [List.foldl_append]
    refine (ih hperm hord).add ?_ ?_
    · exact hperm.subset (by simp)
    · exact hord front x back rfl

/-- **The chains of an ordered scope are its runs**, they cover all that is no control-flow
container, and they stand in the order of their heads. -/
theorem runs_chains {order : List BlockId} (hperm : order.Perm s.ids)
    (hord : Order.Ordered s.dependencies order) : s.ChainsSoFar order (s.chains order) := by
  rw [← List.append_nil order] at hperm hord
  exact chainsSoFar hperm hord

end Scope

end BlockScript
