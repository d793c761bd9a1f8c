import BlockScript.Proofs.DefinitionBeforeUse
import BlockScript.Proofs.InScopeConnections

/-!
# Connections from outside a scope

What is read by name, and what is said about producers, is settled for the heads of the statements
of a scope: a head reads its only producer by name if it can see a name of it (`readByName_iff`),
and a warning is given exactly if `Layout.inflow` says so (`reported_iff`).  So a connection that
comes from outside the scope of a head is read or reported.  One that leads to a later stage of a
chain is not: chains are built from the connections inside the scope, and nobody looks at the
others (`cross_scope_connection_kept`).
-/

namespace BlockScript

open Emit

/-! ### What is piped into a head -/

namespace Layout

variable {g : Index} {t : Table} {P : Option Place} {n p : BlockId}

theorem inflow_of_unseen (hproducers : (g.scopeAt P).producers n = [p])
    (hname : g.readName? t P p = none) (hp : p ∉ (g.scopeAt P).ids) (input : Option Source) :
    inflow g t P input n = (input, some (.unseenProducer n p)) := by
  simp [inflow, hproducers, hname, Scope.contains, hp]

theorem snd_inflow (input input' : Option Source) :
    (inflow g t P input n).2 = (inflow g t P input' n).2 := by
  simp only [inflow]
  split
  · rfl
  · split
    · rfl
    · split <;> rfl
  · rfl

end Layout

/-! ### What is read and what is reported -/

theorem Finding.consumer?_of_isReference {f : Finding} (h : f.isReference) :
    f.consumer? = none := by
  cases f with
  | unseenProducer => cases h
  | severalProducers => cases h
  | _ => rfl

section

variable {s : Snapshot} {options : GeneratorOptions} {functions main : List BlockId}
  {P : Option Place} {order : List BlockId} {n p : BlockId}

theorem reported_iff
    (h : s.index.Named (s.plan options.suffixLength).pass.table functions main)
    (hfindings : (s.plan options.suffixLength).pass.findings = s.findings ++
      (Layout.script s.index (s.plan options.suffixLength).pass.table functions main).findings)
    (hP : P ∈ s.index.written functions main)
    (hsorted : (s.index.scopeAt P).sorted = .ok order) (hn : n ∈ (s.index.scopeAt P).ids)
    {f : Finding} (hconsumer : f.consumer? = some n) (input : Option Source) :
    f.diagnostic ∈ (s.generate options).diagnostics ↔ (s.index.scopeAt P).IsHead order n ∧
      (Layout.inflow s.index (s.plan options.suffixLength).pass.table P input n).2 = some f := by
  constructor
  · intro hreported
    have hmem := mem_findings_of_reported hconsumer hreported
    rw [hfindings] at hmem
    rcases List.mem_append.mp hmem with hindex | hlayout
    · -- indexing says nothing about producers
      have hreference := Snapshot.isReference_of_mem_findings hindex
      rw [Finding.consumer?_of_isReference hreference] at hconsumer
      cases hconsumer
    · obtain ⟨hhead, input', hsaid⟩ := h.isHead_of_consumer hsorted hn hlayout hconsumer
      exact ⟨hhead, Layout.snd_inflow input input' ▸ hsaid⟩
  · rintro ⟨hhead, hsaid⟩
    obtain ⟨input', -, hfound⟩ := h.exists_begins_of_isHead hP hsorted hn hhead
    refine List.mem_map_of_mem ?_
    show f ∈ (s.plan options.suffixLength).pass.findings
    rw [hfindings]
    exact List.mem_append_right _ (hfound f (Layout.snd_inflow input' input ▸ hsaid))

end

namespace Index.Named

variable {g : Index} {t : Table} {functions main : List BlockId} {P : Option Place}
  {order : List BlockId} {n p : BlockId}

theorem readName?_of_source (h : g.Named t functions main) {e : Entry}
    (he : e ∈ (Layout.script g t functions main).entries) (hbegins : e.begins? = some n)
    {name : String} (hsource : e.source? = some (.variable p name)) :
    g.readName? t (g.parent? n) p = some name := by
  obtain ⟨before, after, hsplit⟩ := List.append_of_mem he
  rcases Layout.traced_script h.toOrdering before e after n p name hsplit hbegins hsource with
    hreads | hnone | ⟨-, -, -, m, -, -, -, -, houter, hreads⟩
  · rw [readName?, if_pos hreads.seen, hreads.named]
  · cases hnone
  · rw [readName?, if_pos (h.consistent.scopesFrom_trans houter hreads.seen), hreads.named]

/-- **Only a head reads its producer by name**, and it does so if it can see a name of it. -/
theorem readByName_iff (h : g.Named t functions main) (hP : P ∈ g.written functions main)
    (hsorted : (g.scopeAt P).sorted = .ok order) (hn : n ∈ (g.scopeAt P).ids)
    (honly : g.OnlyProducer p n) :
    ReadByName (Layout.script g t functions main).entries t.entries p n ↔
      (g.scopeAt P).IsHead order n ∧ (g.readName? t P p).isSome := by
  constructor
  · rintro ⟨name, -, e, he, hbegins, hsource⟩
    have hread := h.readName?_of_source he hbegins hsource
    rw [(h.consistent.mem_scopeAt.mp hn).2] at hread
    exact ⟨(h.isHead_of_begins hsorted hn he hbegins).1, by rw [hread]; rfl⟩
  · rintro ⟨hhead, hsome⟩
    obtain ⟨name, hname⟩ := Option.isSome_iff_exists.mp hsome
    obtain ⟨input, ⟨e, he, hbegins, hsaid⟩, -⟩ := h.exists_begins_of_isHead hP hsorted hn hhead
    have hproducers : (g.scopeAt P).producers n = [p] := by
      rw [Scope.producers_eq_singleton_iff, scopeAt_index]
      exact honly
    rw [Layout.inflow_of_named hproducers hname] at hsaid
    rw [readName?] at hname
    split at hname
    · exact ⟨name, Binding.mem_of_nameIn hname, e, he, hbegins, hsaid⟩
    · cases hname

end Index.Named

/-- A warning says that `n` cannot see its producer `p`. -/
def ReportedUnseen (report : List Diagnostic) (p n : BlockId) : Prop :=
  (Finding.unseenProducer n p).diagnostic ∈ report

/-! ### Read, reported, or lost -/

/-- **A connection from outside a scope is kept if and only if it leads to a head.**  In a scope
that is written, a head reads the source by name, or a warning says that it cannot see it, or that
it has several producers; and it is only one of the three.  A later stage of a chain goes on from
the stage before it, does not read the source, and nothing is said. -/
theorem cross_scope_connection_kept {s : Snapshot} (hs : s.Valid) {options : GeneratorOptions}
    {es : List Entry} (h : (s.plan options.suffixLength).entries? = some es) {P : Option Place}
    (hP : s.index.IsWritten P) {order : List BlockId}
    (hsorted : (s.index.scopeAt P).sorted = .ok order) {c : Connection}
    (hc : c ∈ s.index.connections) (hsource : c.source ∉ (s.index.scopeAt P).ids)
    (htarget : c.target ∈ (s.index.scopeAt P).ids) :
    ((s.index.scopeAt P).IsHead order c.target →
        ExactlyOne (ReadByName es (s.generate options).bindings c.source c.target)
          (ReportedUnseen (s.generate options).diagnostics c.source c.target)
          ((∃ q, q ≠ c.source ∧ s.index.Feeds q c.target) ∧
            ReportedAmbiguous (s.generate options).diagnostics c.source c.target)) ∧
      (¬ (s.index.scopeAt P).IsHead order c.target →
        (∃ u, (s.index.scopeAt P).Fused order u c.target) ∧
          ¬ ReadByName es (s.generate options).bindings c.source c.target ∧
          ¬ ReportedUnseen (s.generate options).diagnostics c.source c.target ∧
          ¬ ReportedAmbiguous (s.generate options).diagnostics c.source c.target) := by
  obtain ⟨functions, main, hnamed, rfl, hfindings⟩ := Snapshot.plan_spec hs h
  have hwritten : P ∈ s.index.written functions main :=
    (hnamed.mem_written_iff (List.ne_nil_of_mem htarget)).mpr hP
  have hfeeds : s.index.Feeds c.source c.target := ⟨c, hc, rfl, rfl⟩
  have hunseen := @reported_iff s options functions main P order c.target hnamed hfindings hwritten
    hsorted htarget (.unseenProducer c.target c.source) rfl none
  have hseveral := fun producers => @reported_iff s options functions main P order c.target hnamed
    hfindings hwritten hsorted htarget (.severalProducers c.target producers) rfl none
  constructor
  · intro hhead
    by_cases honly : s.index.OnlyProducer c.source c.target
    · have hread := hnamed.readByName_iff hwritten hsorted htarget honly
      have hproducers : (s.index.scopeAt P).producers c.target = [c.source] := by
        rw [Scope.producers_eq_singleton_iff, Index.scopeAt_index]
        exact honly
      have hnot_several : ¬ ∃ q, q ≠ c.source ∧ s.index.Feeds q c.target := by
        rintro ⟨q, hq, hqfeeds⟩
        exact hq (honly.only q hqfeeds)
      cases hname : s.index.readName? (s.plan options.suffixLength).pass.table P c.source with
      | some name =>
        rw [Layout.inflow_of_named hproducers hname] at hunseen
        refine Or.inl ⟨hread.mpr ⟨hhead, by rw [hname]; rfl⟩, fun hreported => ?_,
          fun hambiguous => hnot_several hambiguous.1⟩
        cases (hunseen.mp hreported).2
      | none =>
        rw [Layout.inflow_of_unseen hproducers hname hsource] at hunseen
        refine Or.inr (Or.inl ⟨fun hnamed => ?_, hunseen.mpr ⟨hhead, rfl⟩,
          fun hambiguous => hnot_several hambiguous.1⟩)
        have hsome := (hread.mp hnamed).2
        rw [hname] at hsome
        cases hsome
    · obtain ⟨hp, hinflow⟩ := @Index.Named.inflow_of_not_only s.index
        (s.plan options.suffixLength).pass.table P _ _ hfeeds honly
      rw [hinflow none] at hunseen
      refine Or.inr (Or.inr ⟨?_, fun hreported => ?_, exists_other_producer hfeeds honly, _, hp,
        (hseveral _).mpr ⟨hhead, by rw [hinflow]⟩⟩)
      · rintro ⟨name, -, e, he, hn, hvariable⟩
        obtain ⟨-, input, hsaid⟩ := hnamed.isHead_of_begins hsorted htarget he hn
        rw [hsaid, hinflow] at hvariable
        cases hvariable
      · cases (hunseen.mp hreported).2
  · intro hnot
    obtain ⟨u, hfused, -⟩ := (hnamed.consistent.orderedScope hsorted).exists_fused htarget hnot
    refine ⟨⟨u, hfused⟩, ?_, fun hreported => hnot (hunseen.mp hreported).1, ?_⟩
    · rintro ⟨name, -, e, he, hn, -⟩
      exact hnot (hnamed.isHead_of_begins hsorted htarget he hn).1
    · rintro ⟨producers, -, hreported⟩
      exact hnot ((hseveral producers).mp hreported).1

/-- Connections that lead into the branch `copy`: `show` reads `rows`, `look` cannot see `hidden`,
`pair` has two producers, and `join` goes on from `open`, so that `side` is lost. -/
def crossings : Snapshot where
  blocks := [
    { id := "rows", command := "Get-Content" }, { id := "side", command := "Get-Date" },
    { id := "other", container := some (.ifElse "" ["hidden"] []) },
    { id := "hidden", command := "Get-Random" },
    { id := "copy", container := some (.ifElse "" ["show", "look", "pair", "open", "join"] []) },
    { id := "show", command := "Out-Host" }, { id := "look", command := "Out-File" },
    { id := "pair", command := "Compare-Object", inputs := ["In", "Other"] },
    { id := "open", command := "Get-Item" },
    { id := "join", command := "Join-Path", inputs := ["In", "Other"] }]
  connections := [
    { source := "rows", target := "show" }, { source := "hidden", target := "look" },
    { source := "rows", target := "pair" },
    { source := "side", target := "pair", inlet := "Other" },
    { source := "open", target := "join" },
    { source := "side", target := "join", inlet := "Other" }]

theorem cross_scope_connection_kept_crossings :
    ∃ es, (crossings.plan 4).entries? = some es ∧
      (∀ c ∈ crossings.index.connections.take 4,
        ExactlyOne (ReadByName es (crossings.generate {}).bindings c.source c.target)
          (ReportedUnseen (crossings.generate {}).diagnostics c.source c.target)
          ((∃ q, q ≠ c.source ∧ crossings.index.Feeds q c.target) ∧
            ReportedAmbiguous (crossings.generate {}).diagnostics c.source c.target)) ∧
      ¬ ReadByName es (crossings.generate {}).bindings "side" "join" ∧
      ¬ ReportedUnseen (crossings.generate {}).diagnostics "side" "join" ∧
      ¬ ReportedAmbiguous (crossings.generate {}).diagnostics "side" "join" := by
  have hvalid : crossings.Valid := by constructor <;> decide
  have hplan : (crossings.plan 4).entries?.isSome := by decide +kernel
  obtain ⟨es, hes⟩ := Option.isSome_iff_exists.mp hplan
  have hsorted : (crossings.index.scopeAt (some ⟨"copy", .thenZone⟩)).sorted =
      .ok ["show", "look", "pair", "open", "join"] := by decide +kernel
  have hwritten : crossings.index.IsWritten (some ⟨"copy", .thenZone⟩) := by decide +kernel
  have hheads : ∀ c ∈ crossings.index.connections.take 4,
      c.source ∉ (crossings.index.scopeAt (some ⟨"copy", .thenZone⟩)).ids ∧
        c.target ∈ (crossings.index.scopeAt (some ⟨"copy", .thenZone⟩)).ids ∧
        (crossings.index.scopeAt (some ⟨"copy", .thenZone⟩)).IsHead
          ["show", "look", "pair", "open", "join"] c.target := by
    unfold Scope.IsHead
    decide +kernel
  have hjoin : ¬ (crossings.index.scopeAt (some ⟨"copy", .thenZone⟩)).IsHead
      ["show", "look", "pair", "open", "join"] "join" := by
    unfold Scope.IsHead
    decide +kernel
  refine ⟨es, hes, fun c hc => ?_, ?_⟩
  · obtain ⟨hsource, htarget, hhead⟩ := hheads c hc
    exact (@cross_scope_connection_kept crossings hvalid {} es hes _ hwritten _ hsorted c
      (List.mem_of_mem_take hc) hsource htarget).1 hhead
  · exact ((@cross_scope_connection_kept crossings hvalid {} es hes _ hwritten _ hsorted
      { source := "side", target := "join", inlet := "Other" } (by decide +kernel)
      (by decide +kernel) (by decide +kernel)).2 hjoin).2

/-- `out` goes on from `a`, and its other producer `t` stands in the branch `cond`. -/
def sideInput : Snapshot where
  blocks := [
    { id := "cond", container := some (.ifElse "" ["t"] []) }, { id := "t", command := "Get-T" },
    { id := "a", command := "Get-A" },
    { id := "out", command := "Join-Rows", inputs := ["In", "Extra"] }]
  connections := [
    { source := "a", target := "out" }, { source := "t", target := "out", inlet := "Extra" }]

/-- The connection from `t` to `out` is lost: `out` does not read `t`, and nothing is said. -/
theorem cross_scope_connection_lost :
    sideInput.Valid ∧ (sideInput.plan 4).entries?.isSome ∧ sideInput.index.IsWritten none ∧
    ¬ ∀ c ∈ sideInput.index.connections, c.source ∉ (sideInput.index.scopeAt none).ids →
      c.target ∈ (sideInput.index.scopeAt none).ids →
      ReadByName ((sideInput.plan 4).entries?.getD []) (sideInput.generate {}).bindings c.source
          c.target ∨
        ∃ d ∈ (sideInput.generate {}).diagnostics,
          c.target ∈ d.blockIds ∧ c.source ∈ d.blockIds := by
  refine ⟨by constructor <;> decide, by decide +kernel, by decide +kernel, fun hkept => ?_⟩
  have hbindings : (sideInput.generate {}).bindings = [] := by decide +kernel
  have hsilent : (sideInput.generate {}).diagnostics = [] := by decide +kernel
  rcases hkept { source := "t", target := "out", inlet := "Extra" } (by decide +kernel)
    (by decide +kernel) (by decide +kernel) with ⟨name, hname, -⟩ | ⟨d, hd, -⟩
  · rw [hbindings] at hname
    cases hname
  · rw [hsilent] at hd
    cases hd

end BlockScript
