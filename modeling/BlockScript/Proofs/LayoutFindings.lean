import BlockScript.Proofs.LayoutEntries

/-!
# Every statement is written, and what there is to say about it is said

The other side of `Layout.BegunIn`: each scope that is written stands in the script in one piece
(`Layout.holdsScopes_script`).  So each of its statements has its entry, with what `Layout.inflow`
gives for the input of the scope as source, and the finding that `Layout.inflow` gives is among the
findings (`Layout.begunAll_script`).  All findings come from there or are about a zone with a cycle
(`Layout.foundIn_script`).
-/

namespace BlockScript

open Emit

namespace Layout

variable {g : Index} {t : Table} {zone : Place → Option Source → Int → Layout}
  {P : Option Place} {order : List BlockId} {input : Option Source} {level : Int}
  {separate : Bool}

/-! ### Parts of a part -/

/-- The entries of the part stand in the whole in one piece, and what the part says, the whole
says. -/
structure PartOf (part whole : Layout) : Prop where
  entries : part.entries <:+: whole.entries
  findings : part.findings ⊆ whole.findings

theorem PartOf.refl (part : Layout) : PartOf part part :=
  ⟨List.infix_refl _, List.Subset.refl _⟩

theorem PartOf.trans {a b c : Layout} (hab : PartOf a b) (hbc : PartOf b c) : PartOf a c :=
  ⟨hab.entries.trans hbc.entries, fun _ hf => hbc.findings (hab.findings hf)⟩

theorem partOf_join {parts : List Layout} {part : Layout} (h : part ∈ parts) :
    PartOf part (join parts) :=
  ⟨infix_flatMap h, fun _ hf => List.mem_flatMap.mpr ⟨part, h, hf⟩⟩

theorem partOf_spaced (separate : Bool) (part : Layout) : PartOf part (spaced separate part) := by
  refine ⟨?_, List.Subset.refl _⟩
  rw [entries_spaced]
  exact (List.prefix_append _ _).isInfix

/-- The zone `place` of a statement's container, with the input that the container hands on to it,
is part of the statement. -/
theorem exists_zone_partOf {st : Statement} {place : Place} (hplace : place ∈ g.statementZones st)
    (hst : g.parent? st.lead = P) (hinput : g.HasInput t P input) :
    ∃ inside, g.HasInput t (some place) inside ∧
      PartOf (zone place inside (level + 1)) (statement g t zone P input level st) := by
  obtain ⟨rfl, block, hblock, hzone⟩ := Index.mem_statementZones.mp hplace
  obtain rfl : g.parent? place.container = P := hst
  rw [← Index.map_zone_branches block (t.nameOf place.container)
    (inflow g t (g.parent? place.container) input place.container).1] at hzone
  obtain ⟨b, hb, hlabel⟩ := List.mem_map.mp hzone
  have hinside : g.HasInput t (some place) b.input :=
    .zone place block hblock input hinput b hb hlabel
  obtain ⟨id, label⟩ := place
  subst hlabel
  have hbranch : PartOf (zone ⟨id, b.zone⟩ b.input (level + 1)) (branch zone level id b) :=
    ⟨List.infix_append [_] _ _, List.Subset.refl _⟩
  have hbody := hbranch.trans (partOf_join (List.mem_map_of_mem hb))
  refine ⟨b.input, hinside, ?_⟩
  simp only [statement, body, Statement.lead, hblock]
  exact ⟨hbody.entries, fun f hf => List.mem_append_right _ (hbody.findings hf)⟩

theorem partOf_scope {st : Statement} (hst : st ∈ (g.scopeAt P).statements order) :
    PartOf (statement g t zone P input level st)
      (scope g t zone P order input level separate) :=
  (partOf_spaced separate _).trans (partOf_join (List.mem_map_of_mem hst))

theorem mem_findings_scope {f : Finding} :
    f ∈ (scope g t zone P order input level separate).findings ↔
      ∃ st ∈ (g.scopeAt P).statements order, (inflow g t P input st.lead).2 = some f ∨
        f ∈ (body g t zone level (inflow g t P input st.lead).1 st).findings := by
  simp only [scope, findings_join, List.flatMap_map, findings_spaced, List.mem_flatMap, statement,
    List.mem_append, Option.mem_toList]

theorem mem_findings_body {source : Option Source} {st : Statement} {f : Finding}
    (hf : f ∈ (body g t zone level source st).findings) :
    ∃ place ∈ g.statementZones st, ∃ inside, f ∈ (zone place inside (level + 1)).findings := by
  cases st with
  | chain c => simp [body] at hf
  | container id =>
    cases hblock : g.block? id with
    | none => simp [body, hblock] at hf
    | some block =>
      simp only [body, hblock, findings_join, List.flatMap_map, List.mem_flatMap] at hf
      obtain ⟨b, hb, hf⟩ := hf
      refine ⟨⟨id, b.zone⟩, Index.mem_statementZones.mpr ⟨rfl, block, hblock, ?_⟩, b.input, hf⟩
      rw [← Index.map_zone_branches block (t.nameOf id) source]
      exact List.mem_map_of_mem hb

/-- A statement begins with an entry of its own. -/
theorem exists_begins (hg : g.Consistent) (hs : OrderedScope (g.scopeAt P) order) {st : Statement}
    (hst : st ∈ (g.scopeAt P).statements order) :
    ∃ e ∈ (statement g t zone P input level st).entries, e.begins? = some st.lead ∧
      e.source? = (inflow g t P input st.lead).1 := by
  cases st with
  | chain c =>
    exact ⟨_, List.mem_singleton_self _, begins?_pipeline hg hs (hs.chain_mem_iff.mp hst) _ _, rfl⟩
  | container id =>
    have hcf := (hs.container_mem_iff.mp hst).2
    rw [Index.scopeAt_index] at hcf
    obtain ⟨block, hblock, hflow⟩ := Index.isControlFlow_iff.mp hcf
    obtain ⟨first, rest, hcons, -, hsource, hfirst, -⟩ := branches_eq_cons (g := g) hflow
      (t.nameOf id) (inflow g t P input id).1
    refine ⟨.opening level id first.target first.source first.what, ?_, ?_, hsource⟩
    · simp [statement, body, Statement.lead, hblock, hcons, branch]
    · simp [Entry.begins?, hfirst, Statement.lead]

/-! ### All statements of the scopes -/

/-- Each of these scopes, with an input that it has, is part of the whole. -/
def HoldsScopes (g : Index) (t : Table) (scopes : List (Option Place)) (whole : Layout) : Prop :=
  ∀ Q ∈ scopes, ∀ order, (g.scopeAt Q).sorted = .ok order →
    ∃ zone input level separate, g.HasInput t Q input ∧
      PartOf (scope g t zone Q order input level separate) whole

theorem HoldsScopes.mono {scopes : List (Option Place)} {part whole : Layout}
    (h : HoldsScopes g t scopes part) (hpart : PartOf part whole) :
    HoldsScopes g t scopes whole := by
  intro Q hQ order hsorted
  obtain ⟨zone, input, level, separate, hinput, hscope⟩ := h Q hQ order hsorted
  exact ⟨zone, input, level, separate, hinput, hscope.trans hpart⟩

theorem holdsScopes_scope (hg : g.Consistent) (hsorted : (g.scopeAt P).sorted = .ok order)
    {inner : Place → List (Option Place)}
    (hzone : ∀ place input level, g.HasInput t (some place) input →
      HoldsScopes g t (inner place) (zone place input level))
    (hinput : g.HasInput t P input) (level : Int) (separate : Bool) :
    HoldsScopes g t (P :: (g.zonesOf P order).flatMap inner)
      (scope g t zone P order input level separate) := by
  intro Q hQ order' hsorted'
  have hs := hg.orderedScope hsorted
  rcases List.mem_cons.mp hQ with rfl | hQ
  · obtain rfl : order = order' := by
      rw [hsorted] at hsorted'
      exact Except.ok.inj hsorted'
    exact ⟨zone, input, level, separate, hinput, PartOf.refl _⟩
  · obtain ⟨place, hplace, hQ⟩ := List.mem_flatMap.mp hQ
    obtain ⟨st, hst, hplace⟩ := List.mem_flatMap.mp hplace
    obtain ⟨inside, hinside, hpart⟩ := @exists_zone_partOf g t zone P input level st place hplace
      (hg.mem_scopeAt.mp (lead_mem_scope hs hst)).2 hinput
    exact (hzone place inside (level + 1) hinside).mono (hpart.trans (partOf_scope hst)) Q hQ order'
      hsorted'

theorem holdsScopes_zone (hg : g.Consistent) (depth : Nat) (place : Place) (input : Option Source)
    (level : Int) (hinput : g.HasInput t (some place) input) :
    HoldsScopes g t (g.scopesIn depth place) (Layout.zone g t depth place input level) := by
  induction depth using Nat.strong_induction_on generalizing place input level with
  | _ depth ih =>
    rcases zone_cases g t depth place input level with
      ⟨-, -, hin⟩ | ⟨inner, order, rfl, hsorted, heq, hin⟩
    · intro Q hQ
      simp [hin] at hQ
    · rw [heq, hin]
      exact holdsScopes_scope hg hsorted (ih inner (by omega)) hinput level false

theorem infix_part (banner : String) {blocks : List BlockId} (hne : blocks ≠ [])
    (entries : List Entry) : entries <:+: Plan.part banner blocks entries := by
  have hfull : blocks.isEmpty = false := by simpa using hne
  rw [Plan.part, hfull]
  exact (List.suffix_append [.comment banner, .blank] entries).isInfix

/-- **Every scope that is written is part of the script.** -/
theorem holdsScopes_script {functions main : List BlockId} (h : g.Ordering functions main) :
    HoldsScopes g t (g.written functions main) (script g t functions main) := by
  have hg := h.consistent
  intro Q hQ
  rcases h.mem_written.mp hQ with ⟨id, hcall, hQ⟩ | ⟨hmain, hQ⟩
  · have hid := (h.mem_functions id).mpr hcall
    obtain ⟨pre, post, input, level, hinput, -, -, hentries, hfindings⟩ :=
      @definition_spec g t id hcall
    have hbody : PartOf (Layout.zone g t g.blocks.length ⟨id, .body⟩ input level)
        (definition g t id) :=
      ⟨⟨pre, post, hentries.symm⟩, by rw [hfindings]; exact List.Subset.refl _⟩
    have hdefinition : PartOf (Layout.zone g t g.blocks.length ⟨id, .body⟩ input level)
        (definitions g t functions) :=
      hbody.trans ((partOf_spaced true _).trans (partOf_join (List.mem_map_of_mem hid)))
    refine (holdsScopes_zone hg _ _ input level hinput).mono ⟨?_, ?_⟩ Q hQ
    · refine hdefinition.entries.trans ((infix_part Plan.functionsBanner
        (List.ne_nil_of_mem hid) _).trans ?_)
      exact (List.prefix_append _ _).isInfix
    · exact fun f hf => List.mem_append_left _ (hdefinition.findings hf)
  · have hne : main.isEmpty = false := by simpa using hmain
    have hexecution : execution g t main =
        scope g t (Layout.zone g t g.blocks.length) none main none 0 true := by
      simp [execution, hne]
    refine (holdsScopes_scope hg h.top (holdsScopes_zone hg g.blocks.length) .top 0 true).mono
      ⟨?_, ?_⟩ Q (by simpa using hQ)
    · rw [← hexecution]
      exact (infix_part Plan.executionBanner hmain _).trans (List.suffix_append _ _).isInfix
    · rw [← hexecution]
      exact fun f hf => List.mem_append_right _ hf

/-- Every statement of these scopes has its entry in the part, and the part says what there is to
say about it. -/
def BegunAll (g : Index) (t : Table) (scopes : List (Option Place)) (part : Layout) : Prop :=
  ∀ Q ∈ scopes, ∀ order, (g.scopeAt Q).sorted = .ok order →
    ∀ st ∈ (g.scopeAt Q).statements order, ∃ input, g.HasInput t Q input ∧
      (∃ e ∈ part.entries, e.begins? = some st.lead ∧
        e.source? = (inflow g t Q input st.lead).1) ∧
      ∀ f, (inflow g t Q input st.lead).2 = some f → f ∈ part.findings

/-- **Every statement of a scope that is written has its entry in the script.** -/
theorem begunAll_script {functions main : List BlockId} (h : g.Ordering functions main) :
    BegunAll g t (g.written functions main) (script g t functions main) := by
  intro Q hQ order hsorted st hst
  obtain ⟨zone, input, level, separate, hinput, hscope⟩ := holdsScopes_script h Q hQ order hsorted
  obtain ⟨e, he, hbegins⟩ := exists_begins h.consistent (h.consistent.orderedScope hsorted) hst
  refine ⟨input, hinput, ⟨e, ?_, hbegins⟩, fun f hf => ?_⟩
  · exact ((partOf_scope hst).trans hscope).entries.subset he
  · exact hscope.findings (mem_findings_scope.mpr ⟨st, hst, Or.inl hf⟩)

/-! ### All findings -/

/-- The findings are about zones with a cycle, or they are what `inflow` says about leads of these
scopes. -/
def FoundIn (g : Index) (t : Table) (scopes : List (Option Place)) (findings : List Finding) :
    Prop :=
  ∀ f ∈ findings, (∃ place cycle, f = .zoneCycle place cycle) ∨
    ∃ n input, g.parent? n ∈ scopes ∧ g.Leads n ∧
      (inflow g t (g.parent? n) input n).2 = some f

theorem FoundIn.mono {scopes scopes' : List (Option Place)} {findings : List Finding}
    (h : FoundIn g t scopes findings) (hsub : scopes ⊆ scopes') : FoundIn g t scopes' findings := by
  intro f hf
  rcases h f hf with hcycle | ⟨n, input, hn, hrest⟩
  · exact Or.inl hcycle
  · exact Or.inr ⟨n, input, hsub hn, hrest⟩

theorem foundIn_scope (hg : g.Consistent) (hsorted : (g.scopeAt P).sorted = .ok order)
    {inner : Place → List (Option Place)}
    (hzone : ∀ place input level, FoundIn g t (inner place) (zone place input level).findings)
    (input : Option Source) (level : Int) (separate : Bool) :
    FoundIn g t (P :: (g.zonesOf P order).flatMap inner)
      (scope g t zone P order input level separate).findings := by
  intro f hf
  have hs := hg.orderedScope hsorted
  obtain ⟨st, hst, hsaid | hbody⟩ := mem_findings_scope.mp hf
  · obtain ⟨-, hparent⟩ := hg.mem_scopeAt.mp (lead_mem_scope hs hst)
    subst hparent
    exact Or.inr ⟨st.lead, input, List.mem_cons_self, ⟨order, hsorted, st, hst, rfl⟩, hsaid⟩
  · obtain ⟨place, hplace, inside, hf⟩ := mem_findings_body hbody
    refine (hzone place inside (level + 1)).mono ?_ f hf
    intro Q hQ
    exact List.mem_cons_of_mem _
      (List.mem_flatMap.mpr ⟨place, List.mem_flatMap.mpr ⟨st, hst, hplace⟩, hQ⟩)

theorem foundIn_zone (hg : g.Consistent) (depth : Nat) (place : Place) (input : Option Source)
    (level : Int) :
    FoundIn g t (g.scopesIn depth place) (Layout.zone g t depth place input level).findings := by
  induction depth using Nat.strong_induction_on generalizing place input level with
  | _ depth ih =>
    rcases zone_cases g t depth place input level with
      ⟨-, hcycle, -⟩ | ⟨inner, order, rfl, hsorted, heq, hin⟩
    · intro f hf
      obtain ⟨cycle, rfl⟩ := hcycle f hf
      exact Or.inl ⟨place, cycle, rfl⟩
    · rw [heq, hin]
      exact foundIn_scope hg hsorted (ih inner (by omega)) input level false

/-- **The findings of a script** are about its zones with a cycle, and about what is piped into
the statements of its scopes. -/
theorem foundIn_script {functions main : List BlockId} (h : g.Ordering functions main) :
    FoundIn g t (g.written functions main) (script g t functions main).findings := by
  have hg := h.consistent
  intro f hf
  rcases List.mem_append.mp hf with hf | hf
  · rw [definitions, findings_join, List.flatMap_map] at hf
    obtain ⟨id, hid, hf⟩ := List.mem_flatMap.mp hf
    have hcall := (h.mem_functions id).mp hid
    obtain ⟨-, -, input, level, -, -, -, -, hfindings⟩ := @definition_spec g t id hcall
    rw [findings_spaced, hfindings] at hf
    refine (foundIn_zone hg _ _ input level).mono ?_ f hf
    exact fun Q hQ => h.mem_written.mpr (Or.inl ⟨id, hcall, hQ⟩)
  · rw [execution] at hf
    split at hf
    · simp at hf
    · rename_i hne
      refine (foundIn_scope hg h.top (foundIn_zone hg g.blocks.length) none 0 true).mono ?_ f hf
      intro Q hQ
      exact h.mem_written.mpr (Or.inr ⟨by simpa using hne, by simpa using hQ⟩)

end Layout

end BlockScript
