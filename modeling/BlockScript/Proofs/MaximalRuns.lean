import BlockScript.Proofs.InScopeConnections

/-!
# The chains of a scope are its longest runs

`chains_are_maximal_runs`: the chains of a sorted scope share out the blocks that are no
control-flow containers; two blocks are neighbours in one of them if and only if one streams into
the other; and no chain can be made longer.

A chain that grows stops at a block that is taken.  This never happens
(`OrderedScope.findsFree`): what a block leads to comes after it in the order, so it is no head of a
chain that exists by then, and it is a later member of no chain but the one that grows.
-/

namespace BlockScript

/-- While the chain `c` grows behind the chains `earlier`, the one block that a member leads to is
not taken: it is in none of the earlier chains, and not in `c` up to this member. -/
def Scope.FindsFree (s : Scope) (earlier : List Chain) (c : Chain) : Prop :=
  ∀ l₁ u l₂, c.members = l₁ ++ u :: l₂ → ∀ v, s.singleSuccessor? u = some v →
    v ∉ earlier.flatMap Chain.members ++ (l₁ ++ [u])

namespace OrderedScope

variable {s : Scope} {order : List BlockId}

theorem perm_chain_members (h : OrderedScope s order) :
    ((s.chains order).flatMap Chain.members).Perm (s.ids.filter (!s.index.isControlFlow ·)) := by
  have hids : s.ids.Nodup := h.perm.nodup_iff.mp h.nodup
  refine (List.perm_ext_iff_of_nodup h.runs.nodup (hids.filter _)).mpr fun id => ?_
  rw [h.mem_chains_iff, h.perm.mem_iff, List.mem_filter, Bool.not_eq_true']

theorem fused_iff_streams (h : OrderedScope s order) {u v : BlockId} :
    s.Fused order u v ↔ s.Streams u v := by
  constructor
  · rintro ⟨c, hc, l₁, l₂, hmembers⟩
    have hlinked := h.runs.linked c hc
    rw [hmembers, List.isChain_append_cons_cons] at hlinked
    exact hlinked.2.1
  · intro hstreams
    obtain ⟨-, -, -, -, hu, -⟩ := hstreams.connection
    obtain ⟨c, hc, huc⟩ := List.mem_flatMap.mp
      (h.mem_chains_iff.mpr ⟨h.perm.mem_iff.mpr hu, hstreams.left_plain⟩)
    exact ⟨c, hc, Scope.split_of_streams_left (h.runs.linked c hc) (h.runs.ended c hc) huc hstreams⟩

theorem not_mem_dependencies_head (h : OrderedScope s order) {earlier later : List Chain}
    {c d : Chain} (hsplit : s.chains order = earlier ++ c :: later) (hd : d ∈ earlier ++ [c])
    {u : BlockId} (hu : u ∈ c.members) : u ∉ s.dependencies d.head := by
  intro hdep
  have hc : c ∈ s.chains order := by rw [hsplit]; simp
  obtain ⟨front, back, horder⟩ :=
    List.append_of_mem (h.perm.mem_iff.mpr (h.runs.inside c hc c.head c.head_mem).1)
  obtain ⟨-, hback, hdisj⟩ := List.nodup_append.mp (horder ▸ h.nodup)
  have hheads : (earlier.map Chain.head).Sublist front := by
    refine sublist_of_concat_sublist_append (List.nodup_cons.mp hback).1 ?_
    have hall := (Scope.runs_chains h.perm h.ordered).heads
    rw [hsplit, List.map_append, List.map_cons, List.append_cons, horder] at hall
    exact (List.sublist_append_left _ _).trans hall
  have hfront : u ∈ front := by
    rcases List.mem_append.mp hd with hd | hd
    · exact h.mem_front_of_dependencies horder (hheads.subset (List.mem_map_of_mem hd)) hdep
    · rw [List.mem_singleton.mp hd] at hdep
      exact h.ordered front c.head back horder u hdep
  exact hdisj _ (h.head_mem_front horder hc hu hfront) _ (by simp) rfl

theorem not_taken_of_follows (h : OrderedScope s order) {earlier later : List Chain} {c : Chain}
    (hsplit : s.chains order = earlier ++ c :: later) {l₁ l₂ k₁ k₂ : List BlockId} {u v : BlockId}
    (hmembers : c.members = l₁ ++ u :: l₂) (hfollows : c.members = k₁ ++ u :: v :: k₂) :
    v ∉ earlier.flatMap Chain.members ++ (l₁ ++ [u]) := by
  have hnodup := h.runs.nodup
  rw [hsplit, List.flatMap_append, List.flatMap_cons] at hnodup
  have hown := (List.nodup_append.mp (List.nodup_append.mp hnodup).2.1).1
  rw [hmembers, List.nodup_append, List.nodup_cons] at hown
  obtain ⟨-, -, rfl⟩ := (List.append_cons_inj_of_notMem
    (fun hmem => hown.2.2 u hmem u (by simp) rfl) hown.2.1.1).mp (hmembers.symm.trans hfollows)
  intro hmem
  have hall : (earlier.flatMap Chain.members ++ (l₁ ++ [u]) ++
      (v :: k₂ ++ later.flatMap Chain.members)).Nodup := by
    simpa [hmembers] using hnodup
  exact (List.nodup_append.mp hall).2.2 v hmem v (by simp) rfl

/-- **A chain that grows never meets a block that is taken.**  The block that `u` leads to is the
head of a chain, which is not there yet, or it follows `u`. -/
theorem findsFree (h : OrderedScope s order) {earlier later : List Chain} {c : Chain}
    (hsplit : s.chains order = earlier ++ c :: later) : s.FindsFree earlier c := by
  intro l₁ u l₂ hmembers v hsingle htaken
  have hthere : ∀ d ∈ earlier ++ [c], d ∈ s.chains order := by
    intro d hd
    rw [hsplit, List.append_cons]
    exact List.mem_append_left _ hd
  have hc : c ∈ s.chains order := hthere c (by simp)
  have hu : u ∈ c.members := by rw [hmembers]; simp
  have hsource := (h.runs.inside c hc u hu).1
  obtain ⟨hne, htargets⟩ := Scope.singleSuccessor?_eq_some_iff.mp hsingle
  obtain ⟨e, he⟩ := List.exists_mem_of_ne_nil _ hne
  obtain ⟨hconn, rfl, htarget⟩ := Scope.mem_outgoing.mp he
  obtain rfl := htargets e he
  by_cases hhead : s.IsHead order e.target
  · obtain ⟨d, hd, hvd⟩ : ∃ d ∈ earlier ++ [c], e.target ∈ d.members := by
      rcases List.mem_append.mp htaken with hmem | hmem
      · obtain ⟨d, hd, hvd⟩ := List.mem_flatMap.mp hmem
        exact ⟨d, by simp [hd], hvd⟩
      · refine ⟨c, by simp, ?_⟩
        rw [hmembers, List.append_cons]
        exact List.mem_append_left _ hmem
    have hlead : e.target = d.head := by
      rcases hhead with hcf | ⟨d', hd', heq⟩
      · rw [(h.runs.inside d (hthere d hd) _ hvd).2] at hcf
        cases hcf
      · rw [← heq, h.chain_eq_of_mem hd' (hthere d hd) d'.head_mem (heq ▸ hvd)]
    refine h.not_mem_dependencies_head hsplit hd hu ?_
    exact Scope.mem_dependencies.mpr ⟨hsource, e, hconn, rfl, Or.inl hlead⟩
  · obtain ⟨d, hd, k₁, k₂, hfollows⟩ := (h.fused_iff hconn hsource htarget).mpr hhead
    obtain rfl := h.chain_eq_of_mem hd hc (by rw [hfollows]; simp) hu
    exact h.not_taken_of_follows hsplit hmembers hfollows htaken

end OrderedScope

/-- **The chains of a sorted scope are its longest one-to-one runs.**  Every block that is no
control-flow container is in one of them, once.  Neighbours are those blocks of which one streams
into the other, so no chain can be made longer at either end, and no chain stops because the next
block is taken.  The chains stand in the order of their heads. -/
theorem chains_are_maximal_runs {s : Snapshot} (hs : s.Valid) {P : Option Place}
    {order : List BlockId} (hsorted : (s.index.scopeAt P).sorted = .ok order) :
    let scope := s.index.scopeAt P
    ((scope.chains order).flatMap Chain.members).Perm
        (scope.ids.filter (!s.index.isControlFlow ·)) ∧
      (∀ u v, scope.Fused order u v ↔ scope.Streams u v) ∧
      (∀ c ∈ scope.chains order, ∀ w, ¬ scope.Streams w c.head ∧ ¬ scope.Streams c.terminal w) ∧
      (∀ earlier c later, scope.chains order = earlier ++ c :: later →
        scope.FindsFree earlier c) ∧
      ((scope.chains order).map Chain.head).Sublist order := by
  intro scope
  have h : OrderedScope scope order := hs.consistent.orderedScope hsorted
  refine ⟨?_, fun u v => h.fused_iff_streams, fun c hc w => ?_, fun earlier c later hsplit => ?_,
    (Scope.runs_chains h.perm h.ordered).heads⟩
  · have hperm := h.perm_chain_members
    rwa [Index.scopeAt_index] at hperm
  · exact ⟨h.runs.headed c hc w, h.runs.ended c hc w⟩
  · exact h.findsFree hsplit

/-- `join` has two connections from `load`, and `keep` is read in `loop` too. -/
def doubleWire : Snapshot where
  blocks := [
    { id := "show", command := "Out-Host" },
    { id := "loop", container := some (.forEach ["inner"]) },
    { id := "inner", command := "Add-Content" },
    { id := "load", command := "Get-Content" },
    { id := "join", command := "Compare-Object", inputs := ["In", "Other"] },
    { id := "sort", command := "Sort-Object" },
    { id := "keep", command := "Select-Object" }]
  connections := [
    { source := "load", target := "join" },
    { source := "load", target := "join", inlet := "Other" },
    { source := "join", target := "sort" }, { source := "sort", target := "keep" },
    { source := "keep", target := "show" }, { source := "keep", target := "inner" }]

theorem chains_are_maximal_runs_doubleWire :
    (doubleWire.index.scopeAt none).chains ["load", "join", "sort", "keep", "show", "loop"] =
        [⟨"load", []⟩, ⟨"join", ["sort", "keep"]⟩, ⟨"show", []⟩] ∧
      (doubleWire.index.scopeAt none).Streams "join" "sort" ∧
      (doubleWire.index.scopeAt none).Streams "sort" "keep" ∧
      (∀ w, ¬ (doubleWire.index.scopeAt none).Streams w "join" ∧
        ¬ (doubleWire.index.scopeAt none).Streams "keep" w) ∧
      (doubleWire.index.scopeAt none).FindsFree [⟨"load", []⟩] ⟨"join", ["sort", "keep"]⟩ := by
  have hvalid : doubleWire.Valid := by constructor <;> decide
  have hsorted : (doubleWire.index.scopeAt none).sorted =
      .ok ["load", "join", "sort", "keep", "show", "loop"] := by decide +kernel
  have hchains : (doubleWire.index.scopeAt none).chains
      ["load", "join", "sort", "keep", "show", "loop"] =
        [⟨"load", []⟩, ⟨"join", ["sort", "keep"]⟩, ⟨"show", []⟩] := by decide +kernel
  obtain ⟨-, hfused, hlongest, hfree, -⟩ := chains_are_maximal_runs hvalid hsorted
  refine ⟨hchains, ?_, ?_, fun w => ?_, hfree [⟨"load", []⟩] _ [⟨"show", []⟩] hchains⟩
  · exact (hfused _ _).mp ⟨⟨"join", ["sort", "keep"]⟩, by simp [hchains], [], ["keep"], rfl⟩
  · exact (hfused _ _).mp ⟨⟨"join", ["sort", "keep"]⟩, by simp [hchains], ["join"], [], rfl⟩
  · exact hlongest ⟨"join", ["sort", "keep"]⟩ (by simp [hchains]) w

end BlockScript
