import BlockScript.Proofs.CleanSnapshot
import BlockScript.Proofs.UnrelatedBlocks

/-!
# Appending a block

A snapshot that gets one more block at its end, a leaf whose id no connection and no zone mentions
(`Snapshot.Unrelated`), is indexed as before, with the new block in no zone
(`Snapshot.Unrelated.adds`).  With the same names the script is laid out as before and the new block
has its pipeline at the end (`Layout.script_adds`).

* `unrelated_block_appended`: **the lines of the script stay, and those of the new block follow.**
-/

namespace BlockScript

open Emit

/-! ### Layouts -/

namespace Layout

section

variable {g g' : Index} {z : Block} (h : g.Adds z g') (t : Table)
include h

theorem inflow_adds (P : Option Place) (input : Option Source) (id : BlockId) :
    inflow g' t P input id = inflow g t P input id := by
  have hname : g'.readName? t P = g.readName? t P := by
    funext producer
    simp only [Index.readName?, h.parent?, h.scopesFrom]
  rw [inflow, inflow, (h.agree P).producers, hname]
  split
  · rfl
  · rename_i producer hproducers
    have hfeeds : producer ∈ (g.scopeAt P).producers id := by simp [hproducers]
    obtain ⟨c, hc, rfl, -⟩ := Scope.mem_producers.mp hfeeds
    rw [Index.scopeAt_index] at hc
    rw [h.contains_scopeAt (h.consistent.wired c hc).1]
  · rfl

section

variable {zone zone' : Place → Option Source → Int → Layout}

theorem body_adds {st : Statement} (hst : st.members ⊆ g.ids)
    (hzone : ∀ place ∈ g.statementZones st, zone' place = zone place) (level : Int)
    (source : Option Source) : body g' t zone' level source st = body g t zone level source st := by
  cases st with
  | chain c =>
    have hmembers : c.members ⊆ g.ids := hst
    simp only [body, h.filterMap_block? hmembers]
  | container id =>
    have hid : id ∈ g.ids := hst List.mem_cons_self
    obtain ⟨block, hblock⟩ := Index.exists_block? hid
    simp only [body, h.block?_of_mem hid, hblock, h.branches]
    refine congrArg join (List.map_congr_left fun b hb => ?_)
    have hlabel : b.zone ∈ g.branchZones block := by
      rw [← Index.map_zone_branches]
      exact List.mem_map_of_mem hb
    have hplace : (⟨id, b.zone⟩ : Place) ∈ g.statementZones (.container id) :=
      Index.mem_statementZones.mpr ⟨rfl, block, hblock, hlabel⟩
    rw [branch, branch, hzone _ hplace]

/-- The statements of a scope stay if its zones do. -/
theorem statement_adds {P : Option Place} {order : List BlockId}
    (ho : OrderedScope (g.scopeAt P) order)
    (hzone : ∀ place ∈ g.zonesOf P order, zone' place = zone place) {st : Statement}
    (hst : st ∈ (g.scopeAt P).statements order) (input : Option Source) (level : Int) :
    statement g' t zone' P input level st = statement g t zone P input level st := by
  rw [statement, statement, inflow_adds h, body_adds h t (h.members_subset ho hst)]
  exact fun place hplace => hzone place (List.mem_flatMap.mpr ⟨st, hst, hplace⟩)

end

/-- **A zone stays**, and one level more than there are blocks around it changes nothing. -/
theorem zone_adds {depth : Nat} {place : Place} (hcontainer : place.container ∈ g.ids)
    (hlevels : g.blocks.length < depth + g.depth (some place)) :
    zone g' t (depth + 1) place = zone g t depth place := by
  induction depth generalizing place with
  | zero =>
    have : g.depth (some place) ≤ g.blocks.length :=
      h.consistent.depth_zone_le hcontainer place.zone
    omega
  | succ depth ih =>
    have hids : (g'.zoneScope place).ids = (g.zoneScope place).ids := h.ids_zone place
    have hsort : (g'.zoneScope place).sorted = (g.zoneScope place).sorted := h.sorted_zone place
    funext input level
    rw [zone, zone, hids, hsort]
    split
    · rfl
    · cases hsorted : (g.zoneScope place).sorted with
      | error cycle => rfl
      | ok order =>
        have ho : OrderedScope (g.scopeAt (some place)) order := h.consistent.orderedScope hsorted
        simp only [scope, h.statements_zone]
        refine congrArg join (List.map_congr_left fun st hst => congrArg (spaced false) ?_)
        refine statement_adds h t ho (fun inner hinner => ?_) hst input level
        obtain ⟨hmem, hdepth⟩ := h.inner_zone ho hinner
        exact ih hmem (by omega)

theorem zone_adds_all {place : Place} (hcontainer : place.container ∈ g.ids) :
    zone g' t g'.blocks.length place = zone g t g.blocks.length place := by
  rw [h.length_blocks]
  exact zone_adds h t hcontainer (by simp [Index.depth])

theorem definitions_adds {functions : List BlockId} (hfunctions : functions ⊆ g.ids) :
    definitions g' t functions = definitions g t functions := by
  refine congrArg join (List.map_congr_left fun id hid => congrArg (spaced true) ?_)
  have hmem : id ∈ g.ids := hfunctions hid
  have hbody : zone g' t g'.blocks.length ⟨id, .body⟩ = zone g t g.blocks.length ⟨id, .body⟩ :=
    zone_adds_all h t hmem
  simp only [definition, functionBody, h.block?_of_mem hmem, hbody]

omit h in
/-- A top level without blocks has nothing to show, whether it is written or not. -/
theorem execution_eq (main : List BlockId) : execution g t main =
    scope g t (zone g t g.blocks.length) none main none 0 true := by
  cases main <;> rfl

/-- The top level stays, and the new block has its pipeline after it. -/
theorem execution_adds {main : List BlockId} (ho : OrderedScope (g.scopeAt none) main)
    (hname : t.nameOf z.id = none) : execution g' t (main ++ [z.id]) =
      { execution g t main with
        entries := (execution g t main).entries ++ [.pipeline 0 none none [z], .blank] } := by
  have hold : ∀ st ∈ (g.scopeAt none).statements main,
      statement g' t (zone g' t g'.blocks.length) none none 0 st =
        statement g t (zone g t g.blocks.length) none none 0 st := fun st hst =>
    statement_adds h t ho (fun _ hinner => zone_adds_all h t (h.inner_zone ho hinner).1) hst none 0
  have hnew : statement g' t (zone g' t g'.blocks.length) none none 0 (.chain ⟨z.id, []⟩) =
      ⟨[.pipeline 0 none none [z]], []⟩ := by
    have hproducers : (g'.scopeAt none).producers z.id = [] :=
      Scope.producers_of_not_refers (by simpa using h.not_refers)
    simp [statement, inflow, Statement.lead, hproducers, body, Chain.terminal, Chain.members, hname,
      h.block?_new]
  have hparts := List.map_congr_left fun st hst => congrArg (spaced true) (hold st hst)
  rw [execution_eq, execution_eq, scope, scope, h.statements_top ho, List.map_append, hparts,
    List.map_singleton, hnew]
  simp [join, spaced]

/-- **The script stays, and the new block has its pipeline at the end.** -/
theorem script_adds {functions main : List BlockId} (ho : g.Ordering functions main)
    (hname : t.nameOf z.id = none) :
    (script g' t functions (main ++ [z.id])).entries = (script g t functions main).entries ++
        ((if main = [] then [.comment Plan.executionBanner, .blank] else []) ++
          [.pipeline 0 none none [z], .blank]) ∧
      (script g' t functions (main ++ [z.id])).findings = (script g t functions main).findings := by
  rw [script, script, definitions_adds h t ho.functions_subset,
    execution_adds h t ho.orderedTop hname]
  cases main with
  | nil => simp [Plan.part, execution]
  | cons id main => simp [Plan.part]

end

end Layout

/-! ### Snapshots -/

namespace Snapshot

/-- The snapshot with one more block at its end. -/
def extended (s : Snapshot) (z : Block) : Snapshot := { s with blocks := s.blocks ++ [z] }

/-- The block is a leaf, and no connection and no zone mentions its id. -/
structure Unrelated (s : Snapshot) (z : Block) : Prop where
  leaf : z.container = none
  unconnected : ∀ c ∈ s.connections, c.source ≠ z.id ∧ c.target ≠ z.id
  unlisted : ∀ b ∈ s.blocks, ∀ zone ∈ b.zones, z.id ∉ zone.children

theorem Valid.of_extended {s : Snapshot} {z : Block} (h : (s.extended z).Valid) : s.Valid where
  blocks_le := by
    have hle := h.blocks_le
    rw [extended, List.length_append] at hle
    omega
  connections_le := h.connections_le
  ids_nodup := h.ids_nodup.sublist ((List.sublist_append_left _ _).map _)
  ids_nonempty := fun b hb => h.ids_nonempty b (List.mem_append_left _ hb)
  ends_nonempty := h.ends_nonempty

/-- A look-up of another block does not find the new one. -/
theorem find?_extended {s : Snapshot} {z : Block} {id : BlockId} (hne : id ≠ z.id) :
    (s.extended z).blocks.find? (·.id == id) = s.blocks.find? (·.id == id) := by
  simp [extended, hne.symm]

namespace Unrelated

variable {s : Snapshot} {z : Block} (h : s.Unrelated z)
include h

theorem wiring : (s.extended z).wiring = s.wiring := by
  refine List.foldl_ext _ _ _ fun w c hc => ?_
  obtain ⟨hsource, htarget⟩ := h.unconnected c hc
  rw [Wiring.add, Wiring.add, Wiring.refusal?, Wiring.refusal?, find?_extended hsource,
    find?_extended htarget]

theorem nesting : (s.extended z).nesting = s.nesting := by
  have hlistings : (s.extended z).listings = s.listings := by
    simp [listings, extended, Block.zones, h.leaf]
  have hadopted : s.listings.foldl (Nesting.adopt (s.extended z).blocks) {} =
      s.listings.foldl (Nesting.adopt s.blocks) {} := by
    refine List.foldl_ext _ _ _ fun n listing hlisted => ?_
    obtain ⟨b, hb, zone, hzone, hchild, -⟩ := mem_listings.mp hlisted
    have hne : listing.2 ≠ z.id := fun heq => h.unlisted b hb zone hzone (heq ▸ hchild)
    rw [Nesting.adopt, Nesting.adopt, find?_extended hne]
  -- the new block does not lie inside itself, so it is not set free
  have hfree : s.nesting.release z = s.nesting := if_neg (s.nesting_acyclic z.id)
  calc (s.extended z).nesting
    _ = (s.blocks ++ [z]).foldl Nesting.release (s.listings.foldl (Nesting.adopt s.blocks) {}) := by
        rw [Snapshot.nesting, hlistings, hadopted, extended]
    _ = s.nesting.release z := by rw [List.foldl_append]; rfl
    _ = s.nesting := hfree

theorem findings : (s.extended z).findings = s.findings := by
  rw [Snapshot.findings, Snapshot.findings, h.wiring, h.nesting]

/-- **The new block is added to the graph and changes nothing in it.** -/
theorem adds (hs : (s.extended z).Valid) : s.index.Adds z (s.extended z).index where
  consistent := hs.of_extended.consistent
  blocks := rfl
  connections := congrArg Wiring.accepted h.wiring
  parents := congrArg Nesting.parents h.nesting
  leaf := h.leaf
  fresh := by
    have hnodup := hs.ids_nodup
    rw [extended, List.map_append, List.nodup_append] at hnodup
    exact fun hmem => hnodup.2.2 z.id hmem z.id (by simp) rfl

/-- **The names and the findings of a plan stay, and so do its entries**; those of the new block
follow them. -/
theorem plan_extended (hs : (s.extended z).Valid) (suffixLength : Int)
    {functions main : List BlockId} (ho : orders s.index = .ok (functions, main)) :
    ((s.extended z).plan suffixLength).pass.table = (s.plan suffixLength).pass.table ∧
      ((s.extended z).plan suffixLength).pass.findings = (s.plan suffixLength).pass.findings ∧
      ∃ es, (s.plan suffixLength).entries? = some es ∧
        ((s.extended z).plan suffixLength).entries? = some (es ++
          ((if s.index.topLevel = [] then [.comment Plan.executionBanner, .blank] else []) ++
            [.pipeline 0 none none [z], .blank])) := by
  have hadds := h.adds hs
  have hordering := hs.of_extended.consistent.ordering ho
  have ho' : orders (s.extended z).index = .ok (functions, main ++ [z.id]) := by
    rw [hadds.orders, ho]
    rfl
  have hempty : main = [] ↔ s.index.topLevel = [] := by
    have hperm : main.Perm s.index.topLevel := hordering.orderedTop.perm
    rw [← List.length_eq_zero_iff, hperm.length_eq, List.length_eq_zero_iff]
  obtain ⟨htable, hentries, hfindings⟩ := plan_of_orders hs.of_extended suffixLength ho
  obtain ⟨htable', hentries', hfindings'⟩ := plan_of_orders hs suffixLength ho'
  have hsame : ((s.extended z).plan suffixLength).pass.table =
      (s.plan suffixLength).pass.table := by
    rw [htable', htable, hadds.namesAfter_written hordering]
  have hname : (s.plan suffixLength).pass.table.nameOf z.id = none := by
    rw [htable]
    exact hadds.nameOf_new _ _
  obtain ⟨hlayout, hsaid⟩ := Layout.script_adds hadds _ hordering hname
  rw [hsame] at hentries' hfindings'
  refine ⟨hsame, ?_, _, hentries, ?_⟩
  · rw [hfindings', hfindings, h.findings, hsaid]
  · rw [hentries', hlayout]
    simp only [hempty]

end Unrelated

/-- The lines that are joined into the script; none when a cycle stands in the way. -/
def lines? (options : GeneratorOptions) (s : Snapshot) : Option (List String) :=
  (s.plan options.suffixLength).entries?.map (Plan.lines options)

theorem script_of_lines? {options : GeneratorOptions} {s : Snapshot} {lines : List String}
    (h : s.lines? options = some lines) : (s.generate options).script = Plan.join lines := by
  obtain ⟨es, hes, rfl⟩ := Option.map_eq_some_iff.mp h
  simp only [generate, Plan.generation, Plan.text, hes]

theorem script_of_cycle {options : GeneratorOptions} {s : Snapshot} {cycle : List BlockId}
    (ho : orders s.index = .error cycle) :
    (s.generate options).script = Plan.cycleMarker ++ "\n" := by
  simp only [generate, Plan.generation, Plan.text, (plan_of_cycle options.suffixLength ho).1]

end Snapshot

/-- The lines of a block that is written as a statement of its own. -/
def Block.statementLines (b : Block) : List String :=
  Text.indent "" (if b.expression = "" then "$null" else b.expression)

theorem Entry.lines_alone (size : Int) (b : Block) :
    (Entry.pipeline 0 none none [b]).lines size = b.statementLines := by
  have hpad : pad size 0 = "" := by simp [pad, Text.spaces]
  have htext : pipelineText none [b] = if b.expression = "" then "$null" else b.expression := by
    by_cases hempty : b.expression = "" <;>
      simp [pipelineText, segments, Source.reference?, hempty]
  rw [lines, hpad, htext, assignment, String.empty_append, Block.statementLines]

theorem Plan.lines_append (options : GeneratorOptions) (es more : List Entry) :
    lines options (es ++ more) =
      lines options es ++ more.flatMap (Entry.lines options.indentSize) := by
  rw [lines, lines, ← List.append_assoc, List.flatMap_append]

/-- **An unrelated block does not reshuffle the script.** -/
theorem unrelated_block_appended {s : Snapshot} {z : Block} (hs : (s.extended z).Valid)
    (h : s.Unrelated z) (options : GeneratorOptions) :
    ((s.extended z).generate options).bindings = (s.generate options).bindings ∧
      ((s.extended z).generate options).diagnostics = (s.generate options).diagnostics ∧
      match Snapshot.orders s.index with
      | .error _ => (s.generate options).script = Plan.cycleMarker ++ "\n" ∧
          ((s.extended z).generate options).script = Plan.cycleMarker ++ "\n"
      | .ok _ => ∃ lines lines', s.lines? options = some lines ∧
          (s.extended z).lines? options = some lines' ∧
          lines' = lines ++ (if s.index.topLevel = [] then [Plan.executionBanner, ""] else []) ++
            z.statementLines ++ [""] ∧
          (s.generate options).script = Plan.join lines ∧
          ((s.extended z).generate options).script = Plan.join lines' := by
  cases ho : Snapshot.orders s.index with
  | error cycle =>
    have ho' : Snapshot.orders (s.extended z).index = .error cycle := by
      rw [(h.adds hs).orders, ho]
      rfl
    obtain ⟨-, htable, hfindings⟩ := Snapshot.plan_of_cycle options.suffixLength ho
    obtain ⟨-, htable', hfindings'⟩ := Snapshot.plan_of_cycle options.suffixLength ho'
    refine ⟨congrArg Table.entries (htable'.trans htable.symm), ?_, Snapshot.script_of_cycle ho,
      Snapshot.script_of_cycle ho'⟩
    rw [Snapshot.diagnostics_generate, Snapshot.diagnostics_generate, hfindings, hfindings',
      h.findings]
  | ok o =>
    obtain ⟨htable, hfindings, es, hentries, hentries'⟩ :=
      h.plan_extended hs options.suffixLength ho
    have hlines : s.lines? options = some (Plan.lines options es) := by
      rw [Snapshot.lines?, hentries, Option.map_some]
    have hbanner : (Entry.comment Plan.executionBanner).lines options.indentSize =
        [Plan.executionBanner] := rfl
    have hblank : Entry.blank.lines options.indentSize = [""] := rfl
    have hlines' := congrArg (Option.map (Plan.lines options)) hentries'
    rw [Option.map_some, Plan.lines_append] at hlines'
    refine ⟨congrArg Table.entries htable, ?_, _, _, hlines, hlines', ?_,
      Snapshot.script_of_lines? hlines, Snapshot.script_of_lines? hlines'⟩
    · rw [Snapshot.diagnostics_generate, Snapshot.diagnostics_generate, hfindings]
    · split <;> simp [Entry.lines_alone, hbanner, hblank]

/-- Rows that a loop goes through, a function that is called on them, and a connection that leads
nowhere. -/
def loopedRows : Snapshot where
  blocks := [
    { id := "rows", command := "Get-Content", outputVariable := "Rows" },
    { id := "each", container := some (.forEach ["show"]) },
    { id := "show", command := "Write-Output" },
    { id := "clean", container := some (.function "Clear-Row" "" ["trim"]) },
    { id := "trim", scriptBody := "$_.Trim()" }]
  connections := [
    { source := "rows", target := "each" },
    { source := "rows", target := "clean" },
    { source := "clean", target := "gone" }]

/-- Two blocks that feed each other. -/
def circularRows : Snapshot where
  blocks := [{ id := "rows", command := "Get-Content" }, { id := "sort", command := "Sort-Object" }]
  connections := [{ source := "rows", target := "sort" }, { source := "sort", target := "rows" }]

/-- A block for the end of a script. -/
def farewell : Block := { id := "bye", command := "Write-Host" }

theorem unrelated_block_appended_farewell :
    ((loopedRows.extended farewell).generate {}).bindings = [⟨"rows", "Rows"⟩] ∧
      ((loopedRows.extended farewell).generate {}).diagnostics.map Diagnostic.code =
        [.danglingConnection] ∧
      (∃ lines, loopedRows.lines? {} = some lines ∧
        (loopedRows.extended farewell).lines? {} = some (lines ++ ["Write-Host", ""])) ∧
      (∃ lines, Snapshot.lines? {} {} = some lines ∧
        (Snapshot.extended {} farewell).lines? {} =
          some (lines ++ [Plan.executionBanner, "", "Write-Host", ""])) ∧
      ((circularRows.extended farewell).generate {}).script = Plan.cycleMarker ++ "\n" := by
  have htext : farewell.statementLines = ["Write-Host"] := by decide +kernel
  obtain ⟨hbindings, hdiagnostics, hlooped⟩ := unrelated_block_appended
    (s := loopedRows) (z := farewell) (by constructor <;> decide) (by constructor <;> decide) {}
  obtain ⟨-, -, hempty⟩ := unrelated_block_appended
    (s := {}) (z := farewell) (by constructor <;> decide) (by constructor <;> decide) {}
  obtain ⟨-, -, hcircular⟩ := unrelated_block_appended
    (s := circularRows) (z := farewell) (by constructor <;> decide) (by constructor <;> decide) {}
  have ho : Snapshot.orders loopedRows.index = .ok (["clean"], ["rows", "each", "clean"]) := by
    decide +kernel
  have ho' : Snapshot.orders (Snapshot.index {}) = .ok ([], []) := by decide +kernel
  have ho'' : Snapshot.orders circularRows.index = .error ["rows", "sort", "rows"] := by
    decide +kernel
  have htop : loopedRows.index.topLevel ≠ [] := by decide +kernel
  have htop' : (Snapshot.index {}).topLevel = [] := by decide +kernel
  rw [ho] at hlooped
  rw [ho'] at hempty
  rw [ho''] at hcircular
  obtain ⟨lines, -, hlines, hlines', rfl, -⟩ := hlooped
  obtain ⟨none, -, hnone, hnone', rfl, -⟩ := hempty
  refine ⟨hbindings.trans (by decide +kernel), ?_, ⟨lines, hlines, ?_⟩, ⟨none, hnone, ?_⟩,
    hcircular.2⟩
  · rw [hdiagnostics]
    decide +kernel
  · rw [hlines', htext, if_neg htop]
    simp
  · rw [hnone', htext, if_pos htop']
    simp

end BlockScript
