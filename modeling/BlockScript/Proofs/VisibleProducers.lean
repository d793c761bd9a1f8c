import BlockScript.Proofs.OwnResults

/-!
# Visible producers are read by name

A head whose only producer stands in another scope reads it by name if the scope of the producer
lies around its own, with no function in between (`Index.VisibleFrom`).  Two things come together
for that.  The block looks outward, scope after scope, and finds the producer there
(`Index.Consistent.seen_iff_visibleFrom`); and the scope of the producer looks inward, finds the
block among its readers, and so gives the producer a name (`Index.Consistent.isRead_of_seen`).
Producers in zones beside or inside, and those outside a function, are not seen, and the block
takes the input of its scope (`visible_producer_read`).
-/

namespace BlockScript

open Emit

namespace Index

variable {g : Index} {p n : BlockId}

/-- A container around `n` stands in the scope of `p`, and neither it nor a container further in is
a function. -/
def VisibleFrom (g : Index) (p n : BlockId) : Prop :=
  ∃ a ∈ g.ancestors n, g.parent? a = g.parent? p ∧ g.OpenTo a n

/-! ### Looking outward -/

theorem Consistent.exists_ancestor_of_mem_scopesFrom (h : g.Consistent) {Q : Option Place}
    (hQ : Q ∈ g.scopesFrom (g.parent? n)) (hne : Q ≠ g.parent? n) :
    ∃ a ∈ g.ancestors n, g.parent? a = Q := by
  cases hP : g.parent? n with
  | none =>
    rw [hP, scopesFrom_none, List.mem_singleton] at hQ
    exact absurd (hQ.trans hP.symm) hne
  | some place =>
    rw [hP] at hQ hne
    obtain ⟨a, ha, hparent⟩ := List.mem_map.mp ((List.mem_cons.mp hQ).resolve_left hne)
    rw [h.ancestors_of_some hP]
    exact ⟨a, (List.takeWhile_sublist _).subset ha, hparent⟩

/-- **What a block sees outside its scope**: the blocks of the scopes around it, up to the nearest
function. -/
theorem Consistent.seen_iff_visibleFrom (h : g.Consistent) (hout : g.parent? p ≠ g.parent? n) :
    g.parent? p ∈ g.scopesFrom (g.parent? n) ↔ g.VisibleFrom p n := by
  constructor
  · intro hseen
    obtain ⟨a, ha, hparent⟩ := h.exists_ancestor_of_mem_scopesFrom hseen hout
    exact ⟨a, ha, hparent, (h.seen_iff_openTo ha).mp (by rwa [hparent])⟩
  · rintro ⟨a, ha, hparent, hopen⟩
    rw [← hparent]
    exact (h.seen_iff_openTo ha).mpr hopen

/-! ### Looking inward -/

theorem Consistent.isRead_of_seen (h : g.Consistent) (hfeeds : g.Feeds p n)
    (hout : g.parent? p ≠ g.parent? n) (hnot : p ∉ g.ancestors n)
    (hseen : g.parent? p ∈ g.scopesFrom (g.parent? n)) :
    (g.scopeAt (g.parent? p)).isRead p := by
  have hnested : (g.scopeAt (g.parent? p)).hasNestedConsumers p :=
    h.hasNestedConsumers_iff.mpr ⟨n, hfeeds, hnot, hseen, hout⟩
  rw [Scope.isRead]
  split
  · simp [Binder.containerNeedsName, hnested]
  · simp [Binder.chainNeedsName, Chain.terminal, hnested]

end Index

/-! ### Read, or reported -/

/-- **A visible producer is always read by name.**  Let `p` be the only producer of the head `n` and
stand outside its scope.  If `p` can be seen from `n` and is no container around it, then `p` has a
name, the statement that assigns it is complete before that of `n` begins, the name is piped into
the statement of `n`, and no warning about a producer that cannot be seen is given for `n`.  If `p`
cannot be seen, the warning is given, and `n` takes the input of its scope. -/
theorem visible_producer_read {s : Snapshot} (hs : s.Valid) {options : GeneratorOptions}
    {es : List Entry} (h : (s.plan options.suffixLength).entries? = some es) {P : Option Place}
    (hP : s.index.IsWritten P) {order : List BlockId}
    (hsorted : (s.index.scopeAt P).sorted = .ok order) {n p : BlockId}
    (hn : n ∈ (s.index.scopeAt P).ids) (hhead : (s.index.scopeAt P).IsHead order n)
    (honly : s.index.OnlyProducer p n) (hout : p ∉ (s.index.scopeAt P).ids) :
    (s.index.VisibleFrom p n → p ∉ s.index.ancestors n →
        ∃ name, ⟨p, name⟩ ∈ (s.generate options).bindings ∧
          (∃ e after, AssignedBefore s.index es e after p name ∧ e.begins? = some n) ∧
          (∀ e ∈ es, e.begins? = some n → e.source? = some (.variable p name)) ∧
          ∀ q, ¬ ReportedUnseen (s.generate options).diagnostics q n) ∧
      (¬ s.index.VisibleFrom p n →
        ReportedUnseen (s.generate options).diagnostics p n ∧
          ∃ input, s.index.HasInput (s.plan options.suffixLength).pass.table P input ∧
            (∃ e ∈ es, e.begins? = some n) ∧
            ∀ e ∈ es, e.begins? = some n → e.source? = input) := by
  obtain ⟨functions, main, hnamed, rfl, hfindings⟩ := Snapshot.plan_spec hs h
  have hg := hnamed.consistent
  have hwritten : P ∈ s.index.written functions main :=
    (hnamed.mem_written_iff (List.ne_nil_of_mem hn)).mpr hP
  obtain ⟨-, rfl⟩ := hg.mem_scopeAt.mp hn
  have hproducers : (s.index.scopeAt (s.index.parent? n)).producers n = [p] := by
    rw [Scope.producers_eq_singleton_iff, Index.scopeAt_index]
    exact honly
  have hp : p ∈ s.index.ids := by
    obtain ⟨c, hc, rfl, -⟩ := honly.feeds
    exact (hg.wired c hc).1
  have hother : s.index.parent? p ≠ s.index.parent? n := fun heq =>
    hout (hg.mem_scopeAt.mpr ⟨hp, heq⟩)
  have hunseen := fun q => @reported_iff s options functions main _ order n hnamed hfindings
    hwritten hsorted hn (.unseenProducer n q) rfl none
  obtain ⟨input, hinput, ⟨e, he, hbegins, hsaid⟩, -⟩ :=
    hnamed.exists_begins_with_input hwritten hsorted hn hhead
  constructor
  · intro hvisible hnot
    have hseen := (hg.seen_iff_visibleFrom hother).mpr hvisible
    obtain ⟨name, hname⟩ := Option.isSome_iff_exists.mp ((hnamed.isSome_readName?_iff hP hp).mpr
      ⟨hseen, hg.isRead_of_seen honly.feeds hother hnot hseen⟩)
    have hnameOf : (s.plan options.suffixLength).pass.table.nameOf p = some name := by
      rwa [Index.readName?, if_pos hseen] at hname
    obtain ⟨before, after, hsplit⟩ := List.append_of_mem he
    have hcaptured :=
      Layout.exists_captures_script hnamed hsplit hbegins ⟨honly, hseen, hnameOf⟩ hnot
    refine ⟨name, Binding.mem_of_nameIn hnameOf,
      ⟨e, after, assignedBefore_of_captures hsplit hcaptured, hbegins⟩,
      fun e' he' hbegins' => ?_, fun q hreported => ?_⟩
    · rw [hnamed.eq_of_begins he' he hbegins' hbegins, hsaid,
        Layout.inflow_of_named hproducers hname]
    · have hsays := ((hunseen q).mp hreported).2
      rw [Layout.inflow_of_named hproducers hname] at hsays
      cases hsays
  · intro hhidden
    have hname : s.index.readName? (s.plan options.suffixLength).pass.table (s.index.parent? n) p =
        none := by
      rw [Index.readName?, if_neg (mt (hg.seen_iff_visibleFrom hother).mp hhidden)]
    refine ⟨(hunseen p).mpr ⟨hhead, by rw [Layout.inflow_of_unseen hproducers hname hout]⟩, input,
      hinput, ⟨e, he, hbegins⟩, fun e' he' hbegins' => ?_⟩
    rw [hnamed.eq_of_begins he' he hbegins' hbegins, hsaid,
      Layout.inflow_of_unseen hproducers hname hout]

/-- `rows` is read from two levels further in by `deep`, and out of the function `task` by `inside`;
`deep` is read by `side`, which stands in the other zone of `cond`. -/
def farReaders : Snapshot where
  blocks := [
    { id := "rows", command := "Get-Content" },
    { id := "each", container := some (.forEach ["cond"]) },
    { id := "cond", container := some (.ifElse "" ["deep"] ["side"]) },
    { id := "deep", command := "Out-File" }, { id := "side", command := "Write-Log" },
    { id := "task", container := some (.function "Invoke-Task" "Path" ["inside"]) },
    { id := "inside", command := "Out-Host" }]
  connections := [
    { source := "rows", target := "deep" }, { source := "deep", target := "side" },
    { source := "rows", target := "inside" }]

theorem visible_producer_read_farReaders :
    ∃ es, (farReaders.plan 4).entries? = some es ∧
      (∃ name, ⟨"rows", name⟩ ∈ (farReaders.generate {}).bindings ∧
        (∃ e after, AssignedBefore farReaders.index es e after "rows" name ∧
          e.begins? = some "deep") ∧
        ∀ e ∈ es, e.begins? = some "deep" → e.source? = some (.variable "rows" name)) ∧
      ReportedUnseen (farReaders.generate {}).diagnostics "deep" "side" ∧
      ReportedUnseen (farReaders.generate {}).diagnostics "rows" "inside" ∧
      (∃ e ∈ es, e.begins? = some "inside") ∧
      ∀ e ∈ es, e.begins? = some "inside" → e.source? = some (.parameter "Path") := by
  have hvalid : farReaders.Valid := by constructor <;> decide
  have hplan : (farReaders.plan 4).entries?.isSome := by decide +kernel
  obtain ⟨es, hes⟩ := Option.isSome_iff_exists.mp hplan
  have honly : ∀ p n, (farReaders.index.scopeAt none).producers n = [p] →
      farReaders.index.OnlyProducer p n := fun p n => Scope.producers_eq_singleton_iff.mp
  have hdeep := @visible_producer_read farReaders hvalid {} es hes (some ⟨"cond", .thenZone⟩)
    (by decide +kernel) ["deep"] (by decide +kernel) "deep" "rows" (by decide +kernel)
    (by unfold Scope.IsHead; decide +kernel) (honly _ _ (by decide +kernel)) (by decide +kernel)
  have hside := @visible_producer_read farReaders hvalid {} es hes (some ⟨"cond", .elseZone⟩)
    (by decide +kernel) ["side"] (by decide +kernel) "side" "deep" (by decide +kernel)
    (by unfold Scope.IsHead; decide +kernel) (honly _ _ (by decide +kernel)) (by decide +kernel)
  have hinside := @visible_producer_read farReaders hvalid {} es hes (some ⟨"task", .body⟩)
    (by decide +kernel) ["inside"] (by decide +kernel) "inside" "rows" (by decide +kernel)
    (by unfold Scope.IsHead; decide +kernel) (honly _ _ (by decide +kernel)) (by decide +kernel)
  obtain ⟨name, hname, hassigned, hread, -⟩ :=
    hdeep.1 (by unfold Index.VisibleFrom Index.OpenTo; decide +kernel) (by decide +kernel)
  obtain ⟨hunseen, -⟩ := hside.2 (by unfold Index.VisibleFrom Index.OpenTo; decide +kernel)
  obtain ⟨hunseen', input, hinput, hbegins, hsource⟩ :=
    hinside.2 (by unfold Index.VisibleFrom Index.OpenTo; decide +kernel)
  have hparameter : farReaders.index.HasInput (farReaders.plan 4).pass.table
      (some ⟨"task", .body⟩) (some (.parameter "Path")) := by
    have hbody := Index.HasInput.body (g := farReaders.index)
      (t := (farReaders.plan 4).pass.table) "task"
      { id := "task", container := some (.function "Invoke-Task" "Path" ["inside"]) }
      (by decide +kernel) "Invoke-Task" "Path" ["inside"] rfl
    have hpath : Source.ofParameter "Path" = some (.parameter "Path") := by decide +kernel
    rwa [hpath] at hbody
  obtain rfl := hinput.unique hparameter
  exact ⟨es, hes, ⟨name, hname, hassigned, hread⟩, hunseen, hunseen', hbegins, hsource⟩

end BlockScript
