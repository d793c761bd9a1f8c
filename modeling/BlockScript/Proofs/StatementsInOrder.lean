import BlockScript.Proofs.InScopeConnections

/-!
# Chains keep the order of the statements

A chain is written as a whole where its first block comes up, and so ahead of blocks that stand
before its other members in the sorted order.  No producer is passed over by this
(`connections_keep_statement_order`): a block that is no head has its only producer right before it
in the chain, and what a head depends on is in an earlier statement
(`OrderedScope.fused_or_statedBefore`).

A scope stands in the script in one piece, and in it the statements one after the other, so the
order of the statements is that of the entries (`Layout.writtenBefore_scope`).
-/

namespace BlockScript

open Emit

/-! ### The statements of a scope -/

/-- The statement of `p` comes before the statement of `n`. -/
def Scope.StatedBefore (s : Scope) (order : List BlockId) (p n : BlockId) : Prop :=
  ∃ l₁ st l₂ st' l₃, s.statements order = l₁ ++ st :: l₂ ++ st' :: l₃ ∧
    p ∈ st.members ∧ n ∈ st'.members

/-- **A connection joins neighbours of a chain, or the statement of its source comes first.** -/
theorem OrderedScope.fused_or_statedBefore {s : Scope} {order : List BlockId}
    (h : OrderedScope s order) {c : Connection} (hc : c ∈ s.index.connections)
    (hsource : c.source ∈ s.ids) (htarget : c.target ∈ s.ids) :
    s.Fused order c.source c.target ∨ s.StatedBefore order c.source c.target := by
  by_cases hhead : s.IsHead order c.target
  · right
    obtain ⟨st', hst', hlead⟩ := (h.isHead_iff htarget).mp hhead
    obtain ⟨before, l₃, hsplit⟩ := List.append_of_mem hst'
    have hdep : c.source ∈ s.dependencies st'.lead :=
      Scope.mem_dependencies.mpr ⟨hsource, c, hc, rfl, Or.inl hlead.symm⟩
    obtain ⟨st, hst, hmem⟩ := h.statement_before hsplit hdep
    obtain ⟨l₁, l₂, rfl⟩ := List.append_of_mem hst
    exact ⟨l₁, st, l₂, st', l₃, hsplit, hmem, hlead ▸ st'.lead_mem⟩
  · exact Or.inl ((h.fused_iff hc hsource htarget).mpr hhead)

/-! ### The entries of the statements -/

/-- `p` and `n` are consecutive stages of a pipeline. -/
def Piped (es : List Entry) (p n : BlockId) : Prop :=
  ∃ level target source stages, .pipeline level target source stages ∈ es ∧
    ∃ l₁ l₂, stages.map Block.id = l₁ ++ p :: n :: l₂

/-- The statement of `p` is complete before the statement of `n` begins. -/
def WrittenBefore (g : Index) (es : List Entry) (p n : BlockId) : Prop :=
  ∃ pre stmt mid stmt' post, es = pre ++ stmt ++ mid ++ stmt' ++ post ∧
    (∃ target members, Layout.StatementOf g target members stmt ∧ p ∈ members) ∧
    ∃ target members, Layout.StatementOf g target members stmt' ∧ n ∈ members

theorem WrittenBefore.mono {g : Index} {part es : List Entry} {p n : BlockId}
    (h : WrittenBefore g part p n) (hpart : part <:+: es) : WrittenBefore g es p n := by
  obtain ⟨pre, stmt, mid, stmt', post, rfl, hstatements⟩ := h
  obtain ⟨front, back, rfl⟩ := hpart
  exact ⟨front ++ pre, stmt, mid, stmt', post ++ back, by simp only [List.append_assoc],
    hstatements⟩

namespace Layout

variable {g : Index} {t : Table} {zone : Place → Option Source → Int → Layout}
  {P : Option Place} {order : List BlockId} {input : Option Source} {level : Int}
  {separate : Bool} {p n : BlockId}

theorem piped_scope (hg : g.Consistent) (hs : OrderedScope (g.scopeAt P) order)
    (h : (g.scopeAt P).Fused order p n) :
    Piped (scope g t zone P order input level separate).entries p n := by
  obtain ⟨c, hc, hneighbours⟩ := h
  refine ⟨level, t.nameOf c.terminal, (inflow g t P input c.head).1, c.members.filterMap g.block?,
    ?_, ?_⟩
  · exact (partOf_scope (hs.chain_mem_iff.mpr hc)).entries.subset (List.mem_singleton_self _)
  · rwa [map_id_stages hg hs hc]

/-- **The statements of a scope are written in their order**, each of them complete before the next
one. -/
theorem writtenBefore_scope (hg : g.Consistent) (hs : OrderedScope (g.scopeAt P) order)
    (h : (g.scopeAt P).StatedBefore order p n) :
    WrittenBefore g (scope g t zone P order input level separate).entries p n := by
  obtain ⟨l₁, st, l₂, st', l₃, hsplit, hp, hn⟩ := h
  have hst : st ∈ (g.scopeAt P).statements order := by rw [hsplit]; simp
  have hst' : st' ∈ (g.scopeAt P).statements order := by rw [hsplit]; simp
  let entriesOf := statementEntries g t zone P input level separate
  let gap : List Entry := if separate then [.blank] else []
  refine ⟨entriesOf l₁, (statement g t zone P input level st).entries, gap ++ entriesOf l₂,
    (statement g t zone P input level st').entries, gap ++ entriesOf l₃, ?_,
    ⟨_, _, statementOf_statement hg hs hst, hp⟩, ⟨_, _, statementOf_statement hg hs hst', hn⟩⟩
  rw [entries_scope, hsplit]
  simp only [statementEntries, List.flatMap_append, List.flatMap_cons, entries_spaced,
    List.append_assoc, entriesOf, gap]

end Layout

/-- **Chains keep the order of the statements.**  Take a scope that can be sorted and a connection
inside it.  Its ends are neighbours in a chain, or the statement of its source comes before the
statement of its target.  In a script in which the scope is written, they are consecutive stages of
one pipeline, or the statement of the source is complete before that of the target begins. -/
theorem connections_keep_statement_order {s : Snapshot} (hs : s.Valid) {P : Option Place}
    {order : List BlockId} (hsorted : (s.index.scopeAt P).sorted = .ok order) {c : Connection}
    (hc : c ∈ s.index.connections) (hsource : c.source ∈ (s.index.scopeAt P).ids)
    (htarget : c.target ∈ (s.index.scopeAt P).ids) :
    ((s.index.scopeAt P).Fused order c.source c.target ∨
        (s.index.scopeAt P).StatedBefore order c.source c.target) ∧
      ∀ suffixLength es, (s.plan suffixLength).entries? = some es → s.index.IsWritten P →
        Piped es c.source c.target ∨ WrittenBefore s.index es c.source c.target := by
  have hg := hs.consistent
  have hordered := hg.orderedScope hsorted
  have hkept := hordered.fused_or_statedBefore (by rwa [Index.scopeAt_index]) hsource htarget
  refine ⟨hkept, fun suffixLength es h hP => ?_⟩
  obtain ⟨functions, main, hnamed, rfl, -⟩ := Snapshot.plan_spec hs h
  have hwritten : P ∈ s.index.written functions main :=
    (hnamed.mem_written_iff (List.ne_nil_of_mem htarget)).mpr hP
  obtain ⟨zone, input, level, separate, -, hpart⟩ :=
    Layout.holdsScopes_script hnamed.toOrdering P hwritten order hsorted
  rcases hkept with hfused | hstated
  · obtain ⟨level', target, source, stages, hmem, hstages⟩ := Layout.piped_scope hg hordered hfused
    exact Or.inl ⟨level', target, source, stages, hpart.entries.subset hmem, hstages⟩
  · exact Or.inr ((Layout.writtenBefore_scope hg hordered hstated).mono hpart.entries)

/-- `sort` continues `load`, so it is written before `other`, which stands before it in the order;
`join` reads both, and `branch` reads `join`. -/
def earlyChain : Snapshot where
  blocks := [
    { id := "load", command := "Get-Content" }, { id := "other", command := "Get-Item" },
    { id := "sort", command := "Sort-Object" },
    { id := "branch", container := some (.ifElse "" ["show"] []) },
    { id := "show", command := "Out-Host" },
    { id := "join", command := "Compare-Object", inputs := ["In", "Other"] }]
  connections := [
    { source := "load", target := "sort" }, { source := "sort", target := "join" },
    { source := "other", target := "join", inlet := "Other" },
    { source := "join", target := "branch" }]

theorem connections_keep_statement_order_earlyChain :
    (earlyChain.index.scopeAt none).sorted = .ok ["load", "other", "sort", "join", "branch"] ∧
      (earlyChain.index.scopeAt none).chains ["load", "other", "sort", "join", "branch"] =
        [⟨"load", ["sort"]⟩, ⟨"other", []⟩, ⟨"join", []⟩] ∧
      ∃ es, (earlyChain.plan 4).entries? = some es ∧ earlyChain.index.connections.length = 4 ∧
        ∀ c ∈ earlyChain.index.connections,
          Piped es c.source c.target ∨ WrittenBefore earlyChain.index es c.source c.target := by
  have hvalid : earlyChain.Valid := by constructor <;> decide
  have hsorted : (earlyChain.index.scopeAt none).sorted =
      .ok ["load", "other", "sort", "join", "branch"] := by decide +kernel
  have hplan : (earlyChain.plan 4).entries?.isSome := by decide +kernel
  obtain ⟨es, hes⟩ := Option.isSome_iff_exists.mp hplan
  have hends : ∀ c ∈ earlyChain.index.connections,
      c.source ∈ (earlyChain.index.scopeAt none).ids ∧
        c.target ∈ (earlyChain.index.scopeAt none).ids := by decide +kernel
  refine ⟨hsorted, by decide +kernel, es, hes, by decide +kernel, fun c hc => ?_⟩
  exact (connections_keep_statement_order hvalid hsorted hc (hends c hc).1 (hends c hc).2).2 4 es
    hes (by decide +kernel)

end BlockScript
