import BlockScript.Proofs.EmissionLayout
import BlockScript.Proofs.LayoutFindings

/-!
# No connection inside a scope is lost

A connection whose ends lie in one scope joins two neighbours of a chain, or its target reads the
source by name, or the target has several producers and a warning says so; and it is only one of the
three (`in_scope_connection_kept`).

The first case is that the target leads no statement (`OrderedScope.fused_iff`).  Where it leads one
and has no other producer, the source is read other than by the next stage, so it has a name
(`OrderedScope.isRead_of_lead`).
-/

namespace BlockScript

open Emit

/-! ### Inside one scope -/

/-- `p` and `n` are neighbours in a chain. -/
def Scope.Fused (s : Scope) (order : List BlockId) (p n : BlockId) : Prop :=
  ∃ c ∈ s.chains order, ∃ l₁ l₂, c.members = l₁ ++ p :: n :: l₂

/-- The block is a control-flow container or the head of a chain. -/
def Scope.IsHead (s : Scope) (order : List BlockId) (n : BlockId) : Prop :=
  s.index.isControlFlow n ∨ ∃ c ∈ s.chains order, c.head = n

namespace OrderedScope

variable {s : Scope} {order : List BlockId}

theorem isHead_iff (h : OrderedScope s order) {n : BlockId} (hn : n ∈ s.ids) :
    s.IsHead order n ↔ ∃ st ∈ s.statements order, st.lead = n := by
  constructor
  · rintro (hcf | ⟨c, hc, rfl⟩)
    · exact ⟨.container n, h.container_mem_iff.mpr ⟨h.perm.mem_iff.mpr hn, hcf⟩, rfl⟩
    · exact ⟨.chain c, h.chain_mem_iff.mpr hc, rfl⟩
  · rintro ⟨st, hst, rfl⟩
    cases st with
    | container id => exact Or.inl (h.container_mem_iff.mp hst).2
    | chain c => exact Or.inr ⟨c, h.chain_mem_iff.mp hst, rfl⟩

theorem not_streams_of_isHead (h : OrderedScope s order) {n : BlockId} (hn : s.IsHead order n)
    (p : BlockId) : ¬ s.Streams p n := by
  intro hstreams
  rcases hn with hcf | ⟨c, hc, rfl⟩
  · rw [hstreams.right_plain] at hcf
    cases hcf
  · exact h.runs.headed c hc p hstreams

/-- A block that leads no statement comes after another one in a chain. -/
theorem exists_fused (h : OrderedScope s order) {n : BlockId} (hn : n ∈ s.ids)
    (hnot : ¬ s.IsHead order n) : ∃ u, s.Fused order u n ∧ s.Streams u n := by
  have hplain : s.index.isControlFlow n = false := by
    rw [← Bool.not_eq_true]
    exact fun hcf => hnot (Or.inl hcf)
  obtain ⟨d, hd, hmem⟩ :=
    List.mem_flatMap.mp (h.mem_chains_iff.mpr ⟨h.perm.mem_iff.mpr hn, hplain⟩)
  obtain ⟨l₁, l₂, hmembers⟩ := List.append_of_mem hmem
  rcases List.eq_nil_or_concat l₁ with rfl | ⟨front, u, rfl⟩
  · exact absurd (Or.inr ⟨d, hd, (List.cons.inj hmembers).1⟩) hnot
  · have hmembers' : d.members = front ++ u :: n :: l₂ := by simpa using hmembers
    have hlinked := h.runs.linked d hd
    rw [hmembers', List.isChain_append_cons_cons] at hlinked
    exact ⟨u, ⟨d, hd, front, l₂, hmembers'⟩, hlinked.2.1⟩

/-- **The ends of a connection are neighbours in a chain if and only if the target leads no
statement.** -/
theorem fused_iff (h : OrderedScope s order) {c : Connection} (hc : c ∈ s.index.connections)
    (hsource : c.source ∈ s.ids) (htarget : c.target ∈ s.ids) :
    s.Fused order c.source c.target ↔ ¬ s.IsHead order c.target := by
  constructor
  · rintro ⟨d, hd, l₁, l₂, hmembers⟩ hhead
    have hlinked := h.runs.linked d hd
    rw [hmembers, List.isChain_append_cons_cons] at hlinked
    exact h.not_streams_of_isHead hhead c.source hlinked.2.1
  · intro hnot
    obtain ⟨u, hneighbours, hstreams⟩ := h.exists_fused htarget hnot
    -- the connection is the one that the two stages have in common
    obtain ⟨e, hout, hin⟩ := hstreams.joined
    have hce : c ∈ s.incoming c.target := Scope.mem_incoming.mpr ⟨hc, rfl, hsource⟩
    rw [hin, List.mem_singleton] at hce
    have heu := (Scope.mem_outgoing.mp (by rw [hout]; simp : e ∈ s.outgoing u)).2.1
    rwa [show c.source = u by rw [hce, heu]]

/-- **What the lead of a statement has as its only producer in the scope is read** other than by
the next stage of a pipeline. -/
theorem isRead_of_lead (h : OrderedScope s order) {c : Connection}
    (hc : c ∈ s.index.connections) (hsource : c.source ∈ s.ids) (htarget : c.target ∈ s.ids)
    (hhead : s.IsHead order c.target) (honly : ∀ d ∈ s.incoming c.target, d.source = c.source) :
    s.isRead c.source := by
  have hout : c ∈ s.outgoing c.source := Scope.mem_outgoing.mpr ⟨hc, rfl, htarget⟩
  by_cases hcf : s.index.isControlFlow c.source
  · rw [Scope.isRead_of_controlFlow hcf]
    simp [Binder.containerNeedsName, List.length_pos_of_mem hout]
  · rw [Bool.not_eq_true] at hcf
    rw [Scope.isRead, if_neg (by simp [hcf])]
    by_contra hunread
    simp only [Binder.chainNeedsName, Chain.terminal, List.getLast?_nil, Option.getD_none,
      Bool.or_eq_true, not_or, Bool.not_eq_true] at hunread
    obtain ⟨⟨hcount, hfeeds⟩, hnested⟩ := hunread
    have hle := of_decide_eq_false hcount
    have hsingle : s.outgoing c.source = [c] := by
      obtain ⟨x, hx⟩ := List.length_eq_one_iff.mp
        (show (s.outgoing c.source).length = 1 by have := List.length_pos_of_mem hout; omega)
      rw [hx, List.mem_singleton] at hout
      rw [hx, hout]
    have hplain : s.index.isControlFlow c.target = false := by
      simpa [Scope.feedsControlFlow, Scope.successors, hsingle, List.eraseDups_cons] using hfeeds
    have hin : s.incoming c.target = [c] := by
      refine Scope.eq_singleton_of_sublist ?_ (List.ne_nil_of_mem (Scope.mem_incoming.mpr
        ⟨hc, rfl, hsource⟩))
      rw [← hsingle]
      exact Scope.incoming_sublist_outgoing htarget honly
    exact h.not_streams_of_isHead hhead c.source ⟨⟨c, hsingle, hin⟩, hnested, hcf, hplain⟩

end OrderedScope

/-! ### What is piped into a lead -/

/-- The block whose producers the finding is about. -/
def Finding.consumer? : Finding → Option BlockId
  | .unseenProducer n _ | .severalProducers n _ => some n
  | _ => none

namespace Layout

variable {g : Index} {t : Table} {P : Option Place} {input : Option Source} {n p : BlockId}

theorem inflow_of_named (hproducers : (g.scopeAt P).producers n = [p]) {name : String}
    (hname : g.readName? t P p = some name) :
    inflow g t P input n = (some (.variable p name), none) := by
  simp only [inflow, hproducers, hname]

theorem inflow_of_several (hp : p ∈ (g.scopeAt P).producers n)
    (hseveral : (g.scopeAt P).producers n ≠ [p]) :
    inflow g t P input n = (none, some (.severalProducers n ((g.scopeAt P).producers n))) := by
  rw [inflow]
  split
  · rename_i hnone
    simp [hnone] at hp
  · rename_i q hq
    rw [hq, List.mem_singleton] at hp
    exact absurd (by rw [hq, hp]) hseveral
  · rfl

theorem consumer_of_inflow {f : Finding} (h : (inflow g t P input n).2 = some f) :
    f.consumer? = some n := by
  rw [inflow] at h
  split at h
  · cases h
  · split at h
    · cases h
    · split at h <;> cases h
      rfl
  · cases h
    rfl

end Layout

/-! ### A head in a scope that is written -/

namespace Index.Named

variable {g : Index} {t : Table} {functions main : List BlockId} {P : Option Place}
  {order : List BlockId} {n : BlockId}

theorem isHead_iff_leads (h : g.Named t functions main)
    (hsorted : (g.scopeAt P).sorted = .ok order) (hn : n ∈ (g.scopeAt P).ids) :
    (g.scopeAt P).IsHead order n ↔ g.Leads n := by
  obtain ⟨-, hparent⟩ := h.consistent.mem_scopeAt.mp hn
  rw [(h.consistent.orderedScope hsorted).isHead_iff hn, Leads, hparent]
  constructor
  · exact fun hst => ⟨order, hsorted, hst⟩
  · rintro ⟨order', hsorted', hst⟩
    rw [hsorted] at hsorted'
    cases hsorted'
    exact hst

/-- Only a head has a statement, and what is piped into it is what `inflow` says. -/
theorem isHead_of_begins (h : g.Named t functions main)
    (hsorted : (g.scopeAt P).sorted = .ok order) (hn : n ∈ (g.scopeAt P).ids) {e : Entry}
    (he : e ∈ (Layout.script g t functions main).entries) (hbegins : e.begins? = some n) :
    (g.scopeAt P).IsHead order n ∧ ∃ input, e.source? = (Layout.inflow g t P input n).1 := by
  obtain ⟨-, hlead, hsaid⟩ := Layout.begunIn_script h.toOrdering e he n hbegins
  rw [(h.consistent.mem_scopeAt.mp hn).2] at hsaid
  exact ⟨(h.isHead_iff_leads hsorted hn).mpr hlead, hsaid⟩

/-- A head has a statement, and what there is to say about it is said. -/
theorem exists_begins_with_input (h : g.Named t functions main)
    (hP : P ∈ g.written functions main) (hsorted : (g.scopeAt P).sorted = .ok order)
    (hn : n ∈ (g.scopeAt P).ids) (hhead : (g.scopeAt P).IsHead order n) :
    ∃ input, g.HasInput t P input ∧
      (∃ e ∈ (Layout.script g t functions main).entries, e.begins? = some n ∧
        e.source? = (Layout.inflow g t P input n).1) ∧
      ∀ f, (Layout.inflow g t P input n).2 = some f →
        f ∈ (Layout.script g t functions main).findings := by
  obtain ⟨st, hst, rfl⟩ := ((h.consistent.orderedScope hsorted).isHead_iff hn).mp hhead
  exact Layout.begunAll_script h.toOrdering P hP order hsorted st hst

theorem exists_begins_of_isHead (h : g.Named t functions main)
    (hP : P ∈ g.written functions main) (hsorted : (g.scopeAt P).sorted = .ok order)
    (hn : n ∈ (g.scopeAt P).ids) (hhead : (g.scopeAt P).IsHead order n) :
    ∃ input, (∃ e ∈ (Layout.script g t functions main).entries, e.begins? = some n ∧
        e.source? = (Layout.inflow g t P input n).1) ∧
      ∀ f, (Layout.inflow g t P input n).2 = some f →
        f ∈ (Layout.script g t functions main).findings := by
  obtain ⟨input, -, hbegins⟩ := h.exists_begins_with_input hP hsorted hn hhead
  exact ⟨input, hbegins⟩

theorem isHead_of_consumer (h : g.Named t functions main)
    (hsorted : (g.scopeAt P).sorted = .ok order) (hn : n ∈ (g.scopeAt P).ids) {f : Finding}
    (hf : f ∈ (Layout.script g t functions main).findings) (hconsumer : f.consumer? = some n) :
    (g.scopeAt P).IsHead order n ∧ ∃ input, (Layout.inflow g t P input n).2 = some f := by
  rcases Layout.foundIn_script h.toOrdering f hf with
    ⟨place, cycle, rfl⟩ | ⟨m, input, -, hlead, hsaid⟩
  · cases hconsumer
  · obtain rfl : m = n := Option.some.inj ((Layout.consumer_of_inflow hsaid).symm.trans hconsumer)
    rw [(h.consistent.mem_scopeAt.mp hn).2] at hsaid
    exact ⟨(h.isHead_iff_leads hsorted hn).mpr hlead, input, hsaid⟩

theorem isHead_of_severalProducers (h : g.Named t functions main)
    (hsorted : (g.scopeAt P).sorted = .ok order) (hn : n ∈ (g.scopeAt P).ids)
    {producers : List BlockId}
    (hf : .severalProducers n producers ∈ (Layout.script g t functions main).findings) :
    (g.scopeAt P).IsHead order n :=
  (h.isHead_of_consumer hsorted hn hf rfl).1

/-- A head whose only producer is in its scope reads it by name. -/
theorem inflow_of_only (h : g.Named t functions main) (hP : P ∈ g.written functions main)
    (hsorted : (g.scopeAt P).sorted = .ok order) {c : Connection} (hc : c ∈ g.connections)
    (hsource : c.source ∈ (g.scopeAt P).ids) (htarget : c.target ∈ (g.scopeAt P).ids)
    (hhead : (g.scopeAt P).IsHead order c.target) (honly : g.OnlyProducer c.source c.target) :
    ∃ name, t.nameOf c.source = some name ∧ ∀ input,
      Layout.inflow g t P input c.target = (some (.variable c.source name), none) := by
  have hg := h.consistent
  have hread : (g.scopeAt P).isRead c.source := by
    refine (hg.orderedScope hsorted).isRead_of_lead (by rwa [scopeAt_index]) hsource htarget
      hhead ?_
    intro d hd
    obtain ⟨hd, hdt, -⟩ := Scope.mem_incoming.mp hd
    rw [scopeAt_index] at hd
    exact honly.only d.source ⟨d, hd, rfl, hdt⟩
  obtain ⟨hid, hparent⟩ := hg.mem_scopeAt.mp hsource
  obtain ⟨name, hname⟩ := Option.isSome_iff_exists.mp
    ((h.isSome_nameOf c.source).mpr ⟨hid, by rwa [hparent], by rwa [hparent]⟩)
  refine ⟨name, hname, fun input => Layout.inflow_of_named ?_ ?_⟩
  · rw [Scope.producers_eq_singleton_iff, scopeAt_index]
    exact honly
  · rw [readName?, if_pos (by rw [hparent]; exact self_mem_scopesFrom P), hname]

theorem inflow_of_not_only {p : BlockId} (hfeeds : g.Feeds p n) (hnot : ¬ g.OnlyProducer p n) :
    p ∈ (g.scopeAt P).producers n ∧ ∀ input, Layout.inflow g t P input n =
      (none, some (.severalProducers n ((g.scopeAt P).producers n))) := by
  have hp : p ∈ (g.scopeAt P).producers n := by
    rw [Scope.mem_producers, scopeAt_index]
    exact hfeeds
  refine ⟨hp, fun input => Layout.inflow_of_several hp ?_⟩
  rw [ne_eq, Scope.producers_eq_singleton_iff, scopeAt_index]
  exact hnot

end Index.Named

/-! ### What indexing reports -/

/-- The finding is about a reference that indexing drops. -/
def Finding.isReference : Finding → Bool
  | .graphCycle _ | .zoneCycle .. | .unseenProducer .. | .severalProducers .. => false
  | _ => true

theorem Wiring.isReference_of_refusal {blocks : List Block} {accepted : List Connection}
    {c : Connection} {f : Finding} (h : refusal? blocks accepted c = some f) : f.isReference := by
  rw [refusal?] at h
  split at h
  · split at h
    · cases h
      rfl
    · split at h
      · cases h
        rfl
      · split at h
        · cases h
          rfl
        · split at h
          · cases h
            rfl
          · cases h
  · cases h
    rfl

theorem Wiring.isReference_foldl_add {blocks : List Block} {connections : List Connection}
    {w : Wiring} (h : ∀ f ∈ w.findings, f.isReference) :
    ∀ f ∈ (connections.foldl (add blocks) w).findings, f.isReference := by
  induction connections generalizing w with
  | nil => exact h
  | cons c rest ih =>
    refine ih ?_
    rw [add]
    split
    · rename_i finding hrefusal
      intro f hf
      rcases List.mem_append.mp hf with hf | hf
      · exact h f hf
      · exact List.mem_singleton.mp hf ▸ isReference_of_refusal hrefusal
    · exact h

theorem Snapshot.isReference_of_mem_findings {s : Snapshot} {f : Finding} (hf : f ∈ s.findings) :
    f.isReference := by
  rcases List.mem_append.mp hf with hf | hf
  · exact Wiring.isReference_foldl_add (by simp) f hf
  · rcases mem_nesting_findings hf with hlisting | ⟨id, rfl⟩
    · cases f with
      | danglingChild | selfNesting | adoptedChild => rfl
      | _ => cases hlisting
    · rfl

theorem Finding.eq_of_diagnostic_eq {f f' : Finding} {n : BlockId}
    (hconsumer : f'.consumer? = some n) (h : f.diagnostic = f'.diagnostic) : f = f' := by
  have hcode : f.code = f'.code := congrArg Diagnostic.code h
  have hids : f.blockIds = f'.blockIds := congrArg Diagnostic.blockIds h
  cases f' with
  | unseenProducer m p =>
    cases f with
    | unseenProducer m' p' =>
      obtain ⟨rfl, hrest⟩ := List.cons.inj hids
      rw [List.head_eq_of_cons_eq hrest]
    | _ => cases hcode
  | severalProducers m producers =>
    cases f with
    | severalProducers m' producers' =>
      obtain ⟨rfl, rfl⟩ := List.cons.inj hids
      rfl
    | _ => cases hcode
  | _ => cases hconsumer

/-- A warning about the producers of a block is about what was found while it was written. -/
theorem mem_findings_of_reported {s : Snapshot} {options : GeneratorOptions} {f : Finding}
    {n : BlockId} (hconsumer : f.consumer? = some n)
    (h : f.diagnostic ∈ (s.generate options).diagnostics) :
    f ∈ (s.plan options.suffixLength).pass.findings := by
  obtain ⟨f', hf', hdiag⟩ := List.mem_map.mp h
  exact Finding.eq_of_diagnostic_eq hconsumer hdiag ▸ hf'

/-! ### The three outcomes -/

/-- `n` begins a statement into which the variable of `p` is piped. -/
def ReadByName (es : List Entry) (bindings : List Binding) (p n : BlockId) : Prop :=
  ∃ name, ⟨p, name⟩ ∈ bindings ∧
    ∃ e ∈ es, e.begins? = some n ∧ e.source? = some (.variable p name)

/-- A warning says that `n` has several producers, `p` among them. -/
def ReportedAmbiguous (report : List Diagnostic) (p n : BlockId) : Prop :=
  ∃ producers, p ∈ producers ∧ (Finding.severalProducers n producers).diagnostic ∈ report

theorem severalProducers_mem_of_reported {s : Snapshot} {options : GeneratorOptions}
    {p n : BlockId} (h : ReportedAmbiguous (s.generate options).diagnostics p n) :
    ∃ producers, .severalProducers n producers ∈ (s.plan options.suffixLength).pass.findings := by
  obtain ⟨producers, -, hmem⟩ := h
  exact ⟨producers, mem_findings_of_reported rfl hmem⟩

theorem exists_other_producer {g : Index} {p n : BlockId} (hfeeds : g.Feeds p n)
    (hnot : ¬ g.OnlyProducer p n) : ∃ q, q ≠ p ∧ g.Feeds q n := by
  by_contra hnone
  refine hnot ⟨hfeeds, fun q hq => ?_⟩
  by_contra hne
  exact hnone ⟨q, hne, hq⟩

def ExactlyOne (a b c : Prop) : Prop := (a ∧ ¬ b ∧ ¬ c) ∨ (¬ a ∧ b ∧ ¬ c) ∨ (¬ a ∧ ¬ b ∧ c)

/-- **No connection inside a scope is lost.**  In a scope that is written, a connection joins
neighbours of a chain, or leads to the head of a statement that reads its source by name, or leads
to a block with another producer for which a warning is given; and never to two of these.  A block
whose only producer is in its scope is never left without a source. -/
theorem in_scope_connection_kept {s : Snapshot} (hs : s.Valid) {options : GeneratorOptions}
    {es : List Entry} (h : (s.plan options.suffixLength).entries? = some es) {P : Option Place}
    (hP : s.index.IsWritten P) {order : List BlockId}
    (hsorted : (s.index.scopeAt P).sorted = .ok order) {c : Connection}
    (hc : c ∈ s.index.connections) (hsource : c.source ∈ (s.index.scopeAt P).ids)
    (htarget : c.target ∈ (s.index.scopeAt P).ids) :
    ExactlyOne ((s.index.scopeAt P).Fused order c.source c.target)
        ((s.index.scopeAt P).IsHead order c.target ∧
          ReadByName es (s.generate options).bindings c.source c.target)
        ((∃ q, q ≠ c.source ∧ s.index.Feeds q c.target) ∧
          ReportedAmbiguous (s.generate options).diagnostics c.source c.target) ∧
      (s.index.OnlyProducer c.source c.target →
        ∀ e ∈ es, e.begins? = some c.target → e.source? ≠ none) := by
  obtain ⟨functions, main, hnamed, rfl, hfindings⟩ := Snapshot.plan_spec hs h
  have hwritten : P ∈ s.index.written functions main :=
    (hnamed.mem_written_iff (List.ne_nil_of_mem htarget)).mpr hP
  have hfused := (hnamed.consistent.orderedScope hsorted).fused_iff
    (by rwa [Index.scopeAt_index]) hsource htarget
  have hfeeds : s.index.Feeds c.source c.target := ⟨c, hc, rfl, rfl⟩
  by_cases hhead : (s.index.scopeAt P).IsHead order c.target
  · obtain ⟨input, ⟨e, he, hbegins, hsaid⟩, hfound⟩ :=
      hnamed.exists_begins_of_isHead hwritten hsorted htarget hhead
    have hnot_fused : ¬ (s.index.scopeAt P).Fused order c.source c.target :=
      fun hneighbours => hfused.mp hneighbours hhead
    by_cases honly : s.index.OnlyProducer c.source c.target
    · obtain ⟨name, hname, hinflow⟩ :=
        hnamed.inflow_of_only hwritten hsorted hc hsource htarget hhead honly
      refine ⟨Or.inr (Or.inl ⟨hnot_fused, ⟨hhead, name, Binding.mem_of_nameIn hname, e, he, hbegins,
        by rw [hsaid, hinflow]⟩, ?_⟩), fun _ e he hn => ?_⟩
      · rintro ⟨⟨q, hq, hqfeeds⟩, -⟩
        exact hq (honly.only q hqfeeds)
      · obtain ⟨-, input, hsaid⟩ := hnamed.isHead_of_begins hsorted htarget he hn
        rw [hsaid, hinflow]
        simp
    · obtain ⟨hp, hinflow⟩ := @Index.Named.inflow_of_not_only s.index
        (s.plan options.suffixLength).pass.table P _ _ hfeeds honly
      have hreported : ReportedAmbiguous (s.generate options).diagnostics c.source c.target := by
        refine ⟨_, hp, List.mem_map_of_mem ?_⟩
        show _ ∈ (s.plan options.suffixLength).pass.findings
        rw [hfindings]
        exact List.mem_append_right _ (hfound _ (by rw [hinflow]))
      refine ⟨Or.inr (Or.inr ⟨hnot_fused, ?_, exists_other_producer hfeeds honly, hreported⟩),
        fun h => absurd h honly⟩
      rintro ⟨-, name, -, e, he, hn, hvariable⟩
      obtain ⟨-, input, hsaid⟩ := hnamed.isHead_of_begins hsorted htarget he hn
      rw [hsaid, hinflow] at hvariable
      cases hvariable
  · refine ⟨Or.inl ⟨hfused.mpr hhead, fun hread => hhead hread.1, fun hreported => hhead ?_⟩,
      fun _ e he hn => absurd (hnamed.isHead_of_begins hsorted htarget he hn).1 hhead⟩
    -- indexing says nothing about producers, so the warning is from the layout
    obtain ⟨producers, hmem⟩ := severalProducers_mem_of_reported hreported.2
    rw [hfindings] at hmem
    rcases List.mem_append.mp hmem with hindex | hlayout
    · cases Snapshot.isReference_of_mem_findings hindex
    · exact hnamed.isHead_of_severalProducers hsorted htarget hlayout

/-- `b` continues `a`, feeds `c` and `d`, and both feed `e`. -/
def fanOutAndJoin : Snapshot where
  blocks := [
    { id := "a", command := "Get-Item" }, { id := "b", command := "Sort-Object" },
    { id := "c", command := "Out-Host" }, { id := "d", command := "Out-File" },
    { id := "e", command := "Compare-Object", inputs := ["In", "Other"] }]
  connections := [
    { source := "a", target := "b" }, { source := "b", target := "c" },
    { source := "b", target := "d" }, { source := "c", target := "e" },
    { source := "d", target := "e", inlet := "Other" }]

theorem in_scope_connection_kept_fanOutAndJoin :
    ∃ es, (fanOutAndJoin.plan 4).entries? = some es ∧
      fanOutAndJoin.index.connections.length = 5 ∧
      ∀ c ∈ fanOutAndJoin.index.connections,
        ExactlyOne
          ((fanOutAndJoin.index.scopeAt none).Fused ["a", "b", "c", "d", "e"] c.source c.target)
          ((fanOutAndJoin.index.scopeAt none).IsHead ["a", "b", "c", "d", "e"] c.target ∧
            ReadByName es (fanOutAndJoin.generate {}).bindings c.source c.target)
          ((∃ q, q ≠ c.source ∧ fanOutAndJoin.index.Feeds q c.target) ∧
            ReportedAmbiguous (fanOutAndJoin.generate {}).diagnostics c.source c.target) := by
  have hvalid : fanOutAndJoin.Valid := by constructor <;> decide
  have hplan : (fanOutAndJoin.plan 4).entries?.isSome := by decide +kernel
  obtain ⟨es, hes⟩ := Option.isSome_iff_exists.mp hplan
  have hends : ∀ c ∈ fanOutAndJoin.index.connections,
      c.source ∈ (fanOutAndJoin.index.scopeAt none).ids ∧
        c.target ∈ (fanOutAndJoin.index.scopeAt none).ids := by decide +kernel
  refine ⟨es, hes, by decide +kernel, fun c hc => ?_⟩
  exact (@in_scope_connection_kept fanOutAndJoin hvalid {} es hes none (by decide +kernel) _
    (by decide +kernel) c hc (hends c hc).1 (hends c hc).2).1

end BlockScript
