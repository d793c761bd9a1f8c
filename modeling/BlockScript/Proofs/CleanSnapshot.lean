import BlockScript.Proofs.AlikeGraphs
import BlockScript.Proofs.EmissionLayout

/-!
# Malformed references leave no trace

`Snapshot.clean` keeps of a snapshot what indexing accepts: the connections that are followed, and
in each zone the blocks that lie in it.  The clean snapshot is indexed without a finding, and its
graph is `Index.Alike` that of the snapshot, so both give the same script.

* `Nesting.foldl_adopt_of_nodup`: zones that list different blocks keep all of them.
* `Snapshot.Valid.alike_clean`: **cleaning changes nothing that generation reads.**
-/

namespace BlockScript

namespace Parents

/-- The containers around a block depend on the nesting through what it says of each block. -/
theorem ancestors_of_perm {parents parents' : Parents} (h : parents'.Perm parents)
    (hnodup : (parents.map Prod.fst).Nodup) (id : BlockId) :
    parents'.lookup id = parents.lookup id ∧ parents'.ancestors id = parents.ancestors id := by
  have hlookup : ∀ id, parents'.lookup id = parents.lookup id := by
    intro id
    have hnodup' : (parents'.map Prod.fst).Nodup := (h.map Prod.fst).nodup_iff.mpr hnodup
    refine Option.ext fun place => ?_
    rw [lookup_eq_some_iff_mem hnodup, lookup_eq_some_iff_mem hnodup', h.mem_iff]
  have hclimb : ∀ fuel id, parents'.climb fuel id = parents.climb fuel id := by
    intro fuel
    induction fuel with
    | zero => exact fun id => rfl
    | succ fuel ih => exact fun id => by simp only [climb, hlookup, ih]
  exact ⟨hlookup id, by rw [ancestors, ancestors, h.length_eq, hclimb]⟩

end Parents

namespace Nesting

variable {blocks : List Block}

/-- **Zones that list different blocks keep all of them**, and nothing is said about them. -/
theorem foldl_adopt_of_nodup {listings : List (Place × BlockId)} {n : Nesting}
    (hexist : ∀ l ∈ listings, l.2 ∈ blocks.map Block.id ∧ l.2 ≠ l.1.container)
    (hnodup : (n.parents.map Prod.fst ++ listings.map Prod.snd).Nodup) :
    listings.foldl (adopt blocks) n =
      { n with parents := n.parents ++ listings.map Prod.swap } := by
  induction listings generalizing n with
  | nil => simp
  | cons l listings ih =>
    obtain ⟨place, child⟩ := l
    obtain ⟨hmem, hself⟩ := hexist (place, child) List.mem_cons_self
    have hnew : child ∉ n.parents.map Prod.fst := by
      intro hold
      exact (List.nodup_append.mp hnodup).2.2 child hold child (by simp) rfl
    have hadopt : n.adopt blocks (place, child) =
        { n with parents := n.parents ++ [(child, place)] } := by
      have hfound : (blocks.find? (·.id == child)).isNone = false := by
        rw [Bool.eq_false_iff]
        exact fun hnone => find?_isNone_iff.mp hnone hmem
      simp only [adopt, hfound, Bool.false_eq_true, if_false, if_neg hself,
        Parents.lookup_eq_none_iff_not_mem.mpr hnew]
    rw [List.foldl_cons, hadopt, ih (fun l hl => hexist l (List.mem_cons_of_mem _ hl))]
    · simp
    · simpa using hnodup

/-- Where no block lies inside itself, none is set free. -/
theorem foldl_release_of_acyclic {n : Nesting} (h : Parents.Acyclic n.parents)
    (bs : List Block) : bs.foldl release n = n := by
  induction bs with
  | nil => rfl
  | cons b bs ih => rw [List.foldl_cons, release, if_neg (h b.id), ih]

end Nesting

namespace Block

variable (children : ZoneLabel → List BlockId) (b : Block)

@[simp] theorem id_withChildren : (b.withChildren children).id = b.id := rfl

theorem zones_withChildren : (b.withChildren children).zones =
    b.zones.map fun z => ⟨z.label, children z.label⟩ := by
  simp only [zones, withChildren]
  rcases b.container with _ | (_ | _ | _ | _ | _) <;> rfl

theorem zone?_withChildren (label : ZoneLabel) : (b.withChildren children).zone? label =
    (b.zone? label).map fun z => ⟨z.label, children z.label⟩ := by
  rw [zone?, zone?, zones_withChildren, List.find?_map]
  rfl

end Block

namespace Snapshot

/-- The snapshot with what indexing accepts: the connections that are followed, and in each zone
the blocks that lie in it. -/
def clean (s : Snapshot) : Snapshot where
  blocks := s.blocks.map fun b => b.withChildren fun label => s.index.zoneChildren ⟨b.id, label⟩
  connections := s.index.connections

/-- The zones of the containers, in order. -/
def places (s : Snapshot) : List Place :=
  s.blocks.flatMap fun b => b.zones.map fun z => ⟨b.id, z.label⟩

variable {s : Snapshot}

theorem map_id_clean : s.clean.blocks.map Block.id = s.blocks.map Block.id := by
  simp [clean, Function.comp_def]

theorem map_bare_clean : s.clean.blocks.map Block.bare = s.blocks.map Block.bare := by
  simp [clean, Function.comp_def]

theorem block?_clean (id : BlockId) : s.clean.index.block? id = (s.index.block? id).map fun b =>
    b.withChildren fun label => s.index.zoneChildren ⟨b.id, label⟩ := by
  rw [Index.block?, index, clean, List.find?_map]
  rfl

/-! ### Connections -/

theorem wellFormed_clean {c : Connection} (h : Wiring.WellFormed s.blocks c) :
    Wiring.WellFormed s.clean.blocks c := by
  obtain ⟨source, target, hsource, htarget, hne, houtlet, hinlet⟩ := h
  have hfind : ∀ id b, s.blocks.find? (·.id == id) = some b →
      ∃ b', s.clean.blocks.find? (·.id == id) = some b' ∧ b'.outputs = b.outputs ∧
        b'.inputs = b.inputs := by
    intro id b hb
    have hclean := s.block?_clean id
    rw [show s.index.block? id = some b from hb] at hclean
    exact ⟨_, hclean, rfl, rfl⟩
  obtain ⟨source', hsource', houtputs, -⟩ := hfind _ _ hsource
  obtain ⟨target', htarget', -, hinputs⟩ := hfind _ _ htarget
  exact ⟨source', target', hsource', htarget', hne, houtputs ▸ houtlet, hinputs ▸ hinlet⟩

theorem wiring_clean : s.clean.wiring = ⟨s.index.connections, []⟩ := by
  rw [wiring, Wiring.foldl_add_of_independent]
  · rfl
  · exact fun c hc => wellFormed_clean (mem_wiring_accepted hc).2
  · exact s.wiring_independent

/-! ### Zones -/

theorem listings_clean : s.clean.listings =
    s.places.flatMap fun place => (s.index.zoneChildren place).map fun child => (place, child) := by
  simp only [listings, clean, places, List.flatMap_map, List.flatMap_assoc,
    Block.zones_withChildren, Block.id_withChildren]

theorem mem_places_of_parent? {id : BlockId} {place : Place}
    (h : (id, place) ∈ s.nesting.parents) : place ∈ s.places := by
  obtain ⟨b, hb, z, hz, -, rfl⟩ := mem_listings.mp (mem_nesting_parents h).1
  exact List.mem_flatMap.mpr ⟨b, hb, List.mem_map_of_mem hz⟩

namespace Valid

theorem nodup_places (hs : s.Valid) : s.places.Nodup := by
  rw [places, List.nodup_flatMap]
  constructor
  · intro b _
    have hlabels := b.nodup_labels
    rw [List.Nodup, List.pairwise_map] at hlabels ⊢
    exact hlabels.imp fun hne heq => hne (Place.mk.inj heq).2
  · have hids := hs.ids_nodup
    rw [List.Nodup, List.pairwise_map] at hids
    refine hids.imp fun hne place ha hb => hne ?_
    obtain ⟨z, -, rfl⟩ := List.mem_map.mp ha
    obtain ⟨z', -, heq⟩ := List.mem_map.mp hb
    exact (Place.mk.inj heq).1.symm

theorem mem_zoneChildren (hs : s.Valid) {place : Place} {id : BlockId} :
    id ∈ s.index.zoneChildren place ↔ (id, place) ∈ s.nesting.parents := by
  rw [← Parents.lookup_eq_some_iff_mem s.nesting_parents_nodup]
  refine (hs.consistent.mem_scopeAt (P := some place)).trans ?_
  exact ⟨fun h => h.2, fun h => ⟨(hs.consistent.nested h).1, h⟩⟩

/-- No block lies in two zones. -/
theorem nodup_zoneChildren (hs : s.Valid) : (s.places.flatMap s.index.zoneChildren).Nodup := by
  rw [List.nodup_flatMap]
  refine ⟨fun place _ => hs.consistent.nodup_scopeAt (some place), hs.nodup_places.imp ?_⟩
  intro place place' hne id hid hid'
  rw [hs.mem_zoneChildren, ← Parents.lookup_eq_some_iff_mem s.nesting_parents_nodup] at hid hid'
  exact hne (Option.some.inj (hid.symm.trans hid'))

theorem nodup_children_clean (hs : s.Valid) : (s.clean.listings.map Prod.snd).Nodup := by
  have hchildren : s.clean.listings.map Prod.snd = s.places.flatMap s.index.zoneChildren := by
    simp [listings_clean, List.map_flatMap, Function.comp_def]
  rw [hchildren]
  exact hs.nodup_zoneChildren

theorem mem_listings_clean (hs : s.Valid) {place : Place} {id : BlockId} :
    (place, id) ∈ s.clean.listings ↔ (id, place) ∈ s.nesting.parents := by
  simp only [listings_clean, List.mem_flatMap, List.mem_map, Prod.mk.injEq, hs.mem_zoneChildren]
  constructor
  · rintro ⟨place, -, id, hmem, rfl, rfl⟩
    exact hmem
  · intro hmem
    exact ⟨place, mem_places_of_parent? hmem, id, hmem, rfl, rfl⟩

theorem perm_listings_clean (hs : s.Valid) :
    (s.clean.listings.map Prod.swap).Perm s.nesting.parents := by
  refine (List.perm_ext_iff_of_nodup ?_ s.nesting_parents_nodup.of_map).mpr ?_
  · refine List.Nodup.of_map Prod.fst ?_
    simpa [Function.comp_def] using hs.nodup_children_clean
  · rintro ⟨id, place⟩
    rw [← hs.mem_listings_clean]
    simp

theorem parents_clean (hs : s.Valid) (id : BlockId) :
    (s.clean.listings.map Prod.swap).lookup id = s.nesting.parents.lookup id ∧
      Parents.ancestors (s.clean.listings.map Prod.swap) id = s.nesting.parents.ancestors id :=
  Parents.ancestors_of_perm hs.perm_listings_clean s.nesting_parents_nodup id

/-- The zones of the clean snapshot keep what they list. -/
theorem nesting_clean (hs : s.Valid) :
    s.clean.nesting = ⟨s.clean.listings.map Prod.swap, []⟩ := by
  have hadopt : s.clean.listings.foldl (Nesting.adopt s.clean.blocks) {} =
      ⟨s.clean.listings.map Prod.swap, []⟩ := by
    rw [Nesting.foldl_adopt_of_nodup]
    · rfl
    · rintro ⟨place, id⟩ hl
      rw [map_id_clean]
      exact (mem_nesting_parents (hs.mem_listings_clean.mp hl)).2
    · exact hs.nodup_children_clean
  rw [nesting, hadopt]
  refine Nesting.foldl_release_of_acyclic (fun id => ?_) _
  rw [(hs.parents_clean id).2]
  exact s.nesting_acyclic id

theorem findings_clean (hs : s.Valid) : s.clean.findings = [] := by
  rw [findings, wiring_clean, hs.nesting_clean]
  rfl

theorem parent?_clean (hs : s.Valid) (id : BlockId) :
    s.clean.index.parent? id = s.index.parent? id := by
  rw [Index.parent?, index, hs.nesting_clean]
  exact (hs.parents_clean id).1

theorem zoneChildren_clean (hs : s.Valid) (place : Place) :
    s.clean.index.zoneChildren place = s.index.zoneChildren place := by
  cases hb : s.index.block? place.container with
  | none => simp [Index.zoneChildren, block?_clean, hb]
  | some b =>
    cases hz : b.zone? place.zone with
    | none => simp [Index.zoneChildren, block?_clean, hb, Block.zone?_withChildren, hz]
    | some z =>
      have hplace : (⟨b.id, z.label⟩ : Place) = place := by
        have hlabel : z.label = place.zone := by simpa using List.find?_some hz
        rw [(Index.mem_of_block? hb).2, hlabel]
      -- the zone lists its blocks, and each of them lies in it
      have hkept : (s.index.zoneChildren place).filter
          (fun child => s.clean.index.parent? child = some place) = s.index.zoneChildren place := by
        refine List.filter_eq_self.mpr fun id hid => ?_
        have hnested := hs.mem_zoneChildren.mp hid
        rw [hs.parent?_clean]
        exact decide_eq_true
          ((Parents.lookup_eq_some_iff_mem s.nesting_parents_nodup).mpr hnested)
      rw [Index.zoneChildren, block?_clean, hb, Option.map_some, Option.bind_some,
        Block.zone?_withChildren, hz, Option.map_some]
      simp only [hplace, hkept]
      exact eraseDups_of_nodup (hs.consistent.nodup_scopeAt (some place))

/-- **Cleaning changes nothing that generation reads.** -/
theorem alike_clean (hs : s.Valid) : s.index.Alike s.clean.index where
  blocks := map_bare_clean
  connections := by rw [index, wiring_clean]
  parent? := hs.parent?_clean
  ancestors := fun id => by
    rw [Index.ancestors, index, hs.nesting_clean]
    exact (hs.parents_clean id).2
  zoneChildren := hs.zoneChildren_clean

theorem clean (hs : s.Valid) : s.clean.Valid where
  blocks_le := by simpa [Snapshot.clean] using hs.blocks_le
  connections_le := s.wiring_sublist.length_le.trans hs.connections_le
  ids_nodup := by
    rw [map_id_clean]
    exact hs.ids_nodup
  ids_nonempty := by
    intro b hb
    obtain ⟨b₀, hb₀, rfl⟩ := List.mem_map.mp hb
    exact hs.ids_nonempty b₀ hb₀
  ends_nonempty := fun c hc => hs.ends_nonempty c (s.wiring_sublist.subset hc)

end Valid

end Snapshot

/-- What is written does not depend on the children of the blocks in pipelines. -/
theorem Plan.lines_congr (options : GeneratorOptions) {es es' : List Entry}
    (h : es'.map Entry.bare = es.map Entry.bare) : lines options es' = lines options es := by
  have hbare : ∀ es : List Entry, es.flatMap (Entry.lines options.indentSize) =
      (es.map Entry.bare).flatMap (Entry.lines options.indentSize) := by
    intro es
    rw [List.flatMap_map]
    exact List.flatMap_congr fun e _ => (e.lines_bare _).symm
  rw [lines, lines, List.flatMap_append, List.flatMap_append, hbare es', h, ← hbare es]

theorem Snapshot.diagnostics_generate (options : GeneratorOptions) (s : Snapshot) :
    (s.generate options).diagnostics =
      (s.plan options.suffixLength).pass.findings.map Finding.diagnostic := rfl

/-- **Malformed references are skipped as if they had never been there.**  The clean snapshot gives
the same script and the same bindings, and indexing reports nothing about it; what else there is to
say is the same. -/
theorem malformed_references_skipped {s : Snapshot} (hs : s.Valid) (options : GeneratorOptions) :
    s.clean.Valid ∧ s.clean.findings = [] ∧
      (s.clean.generate options).script = (s.generate options).script ∧
      (s.clean.generate options).bindings = (s.generate options).bindings ∧
      (s.generate options).diagnostics =
        s.findings.map Finding.diagnostic ++ (s.clean.generate options).diagnostics := by
  have halike := hs.alike_clean
  refine ⟨hs.clean, hs.findings_clean, ?_⟩
  cases ho : Snapshot.orders s.index with
  | error cycle =>
    obtain ⟨hentries, htable, hfindings⟩ := Snapshot.plan_of_cycle options.suffixLength ho
    obtain ⟨hentries', htable', hfindings'⟩ :=
      Snapshot.plan_of_cycle options.suffixLength (halike.orders.trans ho)
    rw [hs.findings_clean, List.nil_append] at hfindings'
    refine ⟨?_, congrArg Table.entries (htable'.trans htable.symm), ?_⟩
    · simp only [Snapshot.generate, Plan.generation, Plan.text, hentries, hentries']
    · rw [Snapshot.diagnostics_generate, Snapshot.diagnostics_generate, hfindings, hfindings',
        List.map_append]
  | ok o =>
    obtain ⟨functions, main⟩ := o
    obtain ⟨htable, hentries, hfindings⟩ := Snapshot.plan_of_orders hs options.suffixLength ho
    obtain ⟨htable', hentries', hfindings'⟩ :=
      Snapshot.plan_of_orders hs.clean options.suffixLength (halike.orders.trans ho)
    have hsame : (s.clean.plan options.suffixLength).pass.table =
        (s.plan options.suffixLength).pass.table := by
      rw [htable', htable, halike.written, halike.namesAfter]
    rw [hsame] at hentries' hfindings'
    obtain ⟨hbare, hsaid⟩ := Layout.bare_eq_iff.mp
      (Layout.bare_script halike (s.plan options.suffixLength).pass.table functions main)
    refine ⟨?_, congrArg Table.entries hsame, ?_⟩
    · simp only [Snapshot.generate, Plan.generation, Plan.text, hentries, hentries']
      rw [Plan.lines_congr options hbare]
    · rw [hs.findings_clean, List.nil_append, hsaid] at hfindings'
      rw [Snapshot.diagnostics_generate, Snapshot.diagnostics_generate, hfindings, hfindings',
        List.map_append]

/-- Two containers that list each other, and every other kind of malformed reference.  What is left
to say is that two blocks lead to `join`. -/
def tangled : Snapshot where
  blocks := [
    { id := "rows", command := "Get-Content" },
    { id := "sort", command := "Sort-Object" },
    { id := "left", container := some (.ifElse "" ["sort", "left", "gone"] ["right"]) },
    { id := "right", container := some (.forEach ["left", "sort"]) },
    { id := "join", command := "Join-String", inputs := ["In", "Side"] }]
  connections := [
    { source := "rows", target := "left" },
    { source := "rows", target := "gone" },
    { source := "rows", target := "rows" },
    { source := "rows", outlet := "Err", target := "sort" },
    { source := "rows", target := "left" },
    { source := "sort", target := "left" },
    { source := "rows", target := "sort" },
    { source := "rows", target := "join" },
    { source := "left", target := "join", inlet := "Side" }]

theorem malformed_references_skipped_tangled :
    tangled.findings.length = 9 ∧ tangled.clean.findings = [] ∧
      (tangled.clean.generate {}).script = (tangled.generate {}).script ∧
      (tangled.clean.generate {}).bindings = (tangled.generate {}).bindings ∧
      (tangled.generate {}).diagnostics =
        tangled.findings.map Finding.diagnostic ++ (tangled.clean.generate {}).diagnostics ∧
      (tangled.clean.generate {}).diagnostics.map Diagnostic.code = [.severalProducers] := by
  have hvalid : tangled.Valid := by constructor <;> decide
  obtain ⟨-, hfindings, hscript, hbindings, hdiagnostics⟩ := malformed_references_skipped hvalid {}
  exact ⟨by decide +kernel, hfindings, hscript, hbindings, hdiagnostics, by decide +kernel⟩

end BlockScript
