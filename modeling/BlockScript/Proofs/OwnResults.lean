import BlockScript.Proofs.CrossScopeConnections
import BlockScript.Proofs.RenderedOnce

/-!
# Reading a container from inside it

The result of a container is assigned when its whole statement has run, so a block inside it that
has it as its only producer should not read it.  Whether it does depends on who else reads the
container: the name is given if some block outside reads the result (`Index.ReadOutside`), and
then the blocks inside see it too, down to the nearest function (`Index.OpenTo`).  Otherwise the
block takes the input of its scope and a warning is given (`own_result_read_iff`).
-/

namespace BlockScript

open Emit

/-! ### From a scope inward -/

namespace Index

variable {g : Index}

theorem Consistent.upTo?_ancestors (h : g.Consistent) {Q : Option Place} (m : BlockId) :
    (∃ inside, Scope.upTo? (g.scopeAt Q).contains (g.ancestors m) = some inside ∧
        inside.any g.isCallable = false) ↔
      Q ∈ g.scopesFrom (g.parent? m) ∧ Q ≠ g.parent? m := by
  generalize hP : g.parent? m = P
  induction P using h.outward generalizing m with
  | top => simp [h.ancestors_of_none hP, Scope.upTo?]
  | zone place ih =>
    have hdepth : Q ∈ g.scopesFrom (g.parent? place.container) → Q ≠ some place := by
      rintro hQ rfl
      have := h.depth_le hQ
      have := h.depth_zone place
      omega
    rw [h.ancestors_of_some hP, Scope.upTo?]
    by_cases hcall : g.isCallable place.container
    · -- the way outward ends here, and the way inward would lead through the function
      rw [scopesFrom_of_callable hcall, List.mem_singleton]
      refine iff_of_false ?_ fun hQ => hQ.2 hQ.1
      rintro ⟨inside, hinside, hany⟩
      split at hinside
      · obtain rfl := Option.some.inj hinside
        simp [hcall] at hany
      · obtain ⟨rest, -, rfl⟩ := Option.map_eq_some_iff.mp hinside
        simp [hcall] at hany
    · rw [Bool.not_eq_true] at hcall
      rw [h.scopesFrom_of_not_callable hcall, List.mem_cons]
      by_cases hmem : place.container ∈ (g.scopeAt Q).ids
      · obtain ⟨-, rfl⟩ := h.mem_scopeAt.mp hmem
        refine iff_of_true ⟨[place.container], ?_, by simp [hcall]⟩
          ⟨Or.inr (self_mem_scopesFrom _), hdepth (self_mem_scopesFrom _)⟩
        rw [if_pos (by simpa [Scope.contains] using hmem)]
      · have hout : Q ≠ g.parent? place.container := by
          rintro rfl
          exact hmem (h.mem_scopeAt.mpr ⟨h.container_mem_ids hP, rfl⟩)
        rw [if_neg (by simpa [Scope.contains] using hmem)]
        have := ih place.container rfl
        constructor
        · rintro ⟨inside, hinside, hany⟩
          obtain ⟨rest, hrest, rfl⟩ := Option.map_eq_some_iff.mp hinside
          have hQ := (this.mp ⟨rest, hrest, by simpa [hcall] using hany⟩).1
          exact ⟨Or.inr hQ, hdepth hQ⟩
        · rintro ⟨hQ | hQ, hne⟩
          · exact absurd hQ hne
          · obtain ⟨rest, hrest, hany⟩ := this.mpr ⟨hQ, hout⟩
            exact ⟨place.container :: rest, by rw [hrest]; rfl, by simpa [hcall] using hany⟩

theorem Consistent.reachesInward_iff (h : g.Consistent) {Q : Option Place} {p m : BlockId} :
    (g.scopeAt Q).reachesInward p m ↔
      p ∉ g.ancestors m ∧ Q ∈ g.scopesFrom (g.parent? m) ∧ Q ≠ g.parent? m := by
  rw [← h.upTo?_ancestors]
  simp only [Scope.reachesInward, scopeAt_index]
  cases hinside : Scope.upTo? (g.scopeAt Q).contains (g.ancestors m) with
  | none => simp
  | some inside => simp [List.contains_eq_mem]

theorem Consistent.hasNestedConsumers_iff (h : g.Consistent) {Q : Option Place} {p : BlockId} :
    (g.scopeAt Q).hasNestedConsumers p ↔ ∃ m, g.Feeds p m ∧ p ∉ g.ancestors m ∧
      Q ∈ g.scopesFrom (g.parent? m) ∧ Q ≠ g.parent? m := by
  rw [Scope.hasNestedConsumers, Bool.not_eq_true', List.isEmpty_eq_false_iff_exists_mem]
  refine exists_congr fun m => ?_
  rw [Scope.nestedConsumers, List.mem_eraseDups, List.mem_filter, h.reachesInward_iff]
  refine and_congr_left fun hin => ?_
  have houtside : (g.scopeAt Q).contains m = false := by
    simpa [Scope.contains, h.mem_scopeAt] using fun _ => Ne.symm hin.2.2
  simp only [List.mem_filter, houtside, Bool.not_false, and_true, scopeAt_index, List.mem_map,
    Index.outgoing, beq_iff_eq, Feeds, and_assoc]

/-- A block outside the container reads its result, without a function in between. -/
def ReadOutside (g : Index) (p : BlockId) : Prop :=
  ∃ m, g.Feeds p m ∧ p ∉ g.ancestors m ∧ g.parent? p ∈ g.scopesFrom (g.parent? m)

/-- **The result of a control-flow container has a name if and only if it is read outside.** -/
theorem Consistent.isRead_iff_readOutside (h : g.Consistent) {p : BlockId}
    (hcf : g.isControlFlow p) : (g.scopeAt (g.parent? p)).isRead p ↔ g.ReadOutside p := by
  rw [Scope.isRead_of_controlFlow (by rwa [scopeAt_index]), Binder.containerNeedsName,
    Bool.or_eq_true, decide_eq_true_eq, List.length_pos_iff_exists_mem, h.hasNestedConsumers_iff]
  simp only [Scope.mem_outgoing, scopeAt_index, h.mem_scopeAt]
  constructor
  · rintro (⟨c, hc, rfl, -, hparent⟩ | ⟨m, hfeeds, hnot, hseen, -⟩)
    · refine ⟨c.target, ⟨c, hc, rfl, rfl⟩, ?_, by rw [hparent]; exact self_mem_scopesFrom _⟩
      rw [h.ancestors_eq, hparent, ← h.ancestors_eq]
      exact h.acyclic _
    · exact ⟨m, hfeeds, hnot, hseen⟩
  · rintro ⟨m, hfeeds, hnot, hseen⟩
    by_cases hparent : g.parent? m = g.parent? p
    · obtain ⟨c, hc, rfl, rfl⟩ := hfeeds
      exact Or.inl ⟨c, hc, rfl, (h.wired c hc).2.1, hparent⟩
    · exact Or.inr ⟨m, hfeeds, hnot, hseen, Ne.symm hparent⟩

/-! ### From a block outward -/

/-- Neither `p` nor a container between `p` and `n` is a function. -/
def OpenTo (g : Index) (p n : BlockId) : Prop :=
  ∀ a ∈ g.ancestors n, a = p ∨ p ∈ g.ancestors a → g.isCallable a = false

theorem Consistent.seen_iff_openTo (h : g.Consistent) {p n : BlockId} (hp : p ∈ g.ancestors n) :
    g.parent? p ∈ g.scopesFrom (g.parent? n) ↔ g.OpenTo p n := by
  generalize hP : g.parent? n = P
  induction P using h.outward generalizing n with
  | top => simp [h.ancestors_of_none hP] at hp
  | zone place ih =>
    have hanc := h.ancestors_of_some hP
    have hother : g.parent? p ≠ some place := by
      intro hparent
      refine h.acyclic p ?_
      show p ∈ g.ancestors p
      rwa [h.ancestors_of_some hparent, ← hanc]
    rw [hanc, List.mem_cons] at hp
    by_cases hcall : g.isCallable place.container
    · rw [scopesFrom_of_callable hcall, List.mem_singleton]
      refine iff_of_false hother fun hopen => ?_
      have := hopen place.container (by rw [hanc]; exact List.mem_cons_self) (hp.imp_left Eq.symm)
      rw [hcall] at this
      cases this
    · rw [Bool.not_eq_true] at hcall
      rw [h.scopesFrom_of_not_callable hcall, List.mem_cons, or_iff_right hother]
      rcases hp with rfl | hp
      · refine iff_of_true (self_mem_scopesFrom _) fun a ha hbetween => ?_
        rw [hanc, List.mem_cons] at ha
        rcases ha with rfl | ha
        · exact hcall
        · rcases hbetween with rfl | hback
          · exact hcall
          · exact absurd (ancestors_trans ha hback) (h.acyclic _)
      · rw [ih hp rfl]
        constructor
        · intro hopen a ha hbetween
          rw [hanc, List.mem_cons] at ha
          rcases ha with rfl | ha
          · exact hcall
          · exact hopen a ha hbetween
        · exact fun hopen a ha => hopen a (by rw [hanc]; exact List.mem_cons_of_mem _ ha)

theorem Consistent.exists_zone_of_mem_ancestors (h : g.Consistent) {p n : BlockId}
    (hp : p ∈ g.ancestors n) : ∃ m place, g.parent? m = some place ∧ place.container = p := by
  generalize hP : g.parent? n = P
  induction P using h.outward generalizing n with
  | top => simp [h.ancestors_of_none hP] at hp
  | zone place ih =>
    rw [h.ancestors_of_some hP, List.mem_cons] at hp
    rcases hp with rfl | hp
    · exact ⟨n, place, hP, rfl⟩
    · exact ih hp rfl

/-- **The result of a container can be read inside it** if and only if no function is in between and
it is read outside as well. -/
theorem Consistent.readable_inside_iff (h : g.Consistent) {p n : BlockId}
    (hp : p ∈ g.ancestors n) :
    g.parent? p ∈ g.scopesFrom (g.parent? n) ∧ (g.scopeAt (g.parent? p)).isRead p ↔
      g.OpenTo p n ∧ g.ReadOutside p := by
  rw [h.seen_iff_openTo hp]
  refine and_congr_right fun hopen => ?_
  obtain ⟨m, place, hm, rfl⟩ := h.exists_zone_of_mem_ancestors hp
  exact h.isRead_iff_readOutside (h.isControlFlow_of_parent? hm (hopen _ hp (Or.inl rfl)))

theorem Named.isSome_readName?_iff {t : Table} {functions main : List BlockId}
    (h : g.Named t functions main) {P : Option Place} (hP : g.IsWritten P) {p : BlockId}
    (hp : p ∈ g.ids) : (g.readName? t P p).isSome ↔
      g.parent? p ∈ g.scopesFrom P ∧ (g.scopeAt (g.parent? p)).isRead p := by
  have hg := h.consistent
  rw [readName?]
  split
  · rename_i hseen
    have hne : (g.scopeAt (g.parent? p)).ids ≠ [] :=
      List.ne_nil_of_mem (hg.mem_scopeAt.mpr ⟨hp, rfl⟩)
    have hwritten : g.parent? p ∈ g.written functions main :=
      (h.mem_written_iff hne).mpr fun R hR => hP R (hg.scopesFrom_trans hseen hR)
    rw [h.isSome_nameOf]
    exact ⟨fun hname => ⟨hseen, hname.2.2⟩, fun hread => ⟨hp, hwritten, hread.2⟩⟩
  · rename_i hnot
    exact iff_of_false (by simp) fun hread => hnot hread.1

end Index

/-! ### One statement for each head -/

theorem Entry.mem_rendered_of_begins {e : Entry} {n : BlockId} (h : e.begins? = some n) :
    n ∈ e.rendered := by
  cases e with
  | pipeline level target source stages =>
    obtain ⟨block, hblock, rfl⟩ := Option.map_eq_some_iff.mp h
    exact List.mem_map_of_mem (List.mem_of_head? hblock)
  | opening level owner target source what =>
    simp only [begins?] at h
    split at h
    · rename_i hfirst
      simp [rendered, hfirst, Option.some.inj h]
    · cases h
  | _ => cases h

theorem Index.Ordering.eq_of_mem_rendered {g : Index} {t : Table} {functions main : List BlockId}
    (h : g.Ordering functions main) {e e' : Entry} {n : BlockId}
    (he : e ∈ (Layout.script g t functions main).entries)
    (he' : e' ∈ (Layout.script g t functions main).entries) (hn : n ∈ e.rendered)
    (hn' : n ∈ e'.rendered) : e = e' := by
  have hnodup : ((Layout.script g t functions main).entries.flatMap Entry.rendered).Nodup :=
    (perm_rendered_script h).nodup_iff.mpr (h.consistent.nodup_blocksOf h.nodup_written)
  exact eq_of_mem_flatMap hnodup he he' hn hn'

theorem Index.Ordering.eq_of_begins {g : Index} {t : Table} {functions main : List BlockId}
    (h : g.Ordering functions main) {e e' : Entry} {n : BlockId}
    (he : e ∈ (Layout.script g t functions main).entries)
    (he' : e' ∈ (Layout.script g t functions main).entries) (hn : e.begins? = some n)
    (hn' : e'.begins? = some n) : e = e' :=
  h.eq_of_mem_rendered he he' (Entry.mem_rendered_of_begins hn) (Entry.mem_rendered_of_begins hn')

/-! ### Read, or reported -/

/-- **A block reads the container around it if and only if the container is read outside as well**
and no function is in between.  Let `p` be a container around the head `n`, and its only producer.
If `p` cannot be read, then a warning is given, and into the statement of `n` is piped the input of
its scope. -/
theorem own_result_read_iff {s : Snapshot} (hs : s.Valid) {options : GeneratorOptions}
    {es : List Entry} (h : (s.plan options.suffixLength).entries? = some es) {P : Option Place}
    (hP : s.index.IsWritten P) {order : List BlockId}
    (hsorted : (s.index.scopeAt P).sorted = .ok order) {n p : BlockId}
    (hn : n ∈ (s.index.scopeAt P).ids) (hhead : (s.index.scopeAt P).IsHead order n)
    (hp : p ∈ s.index.ancestors n) (honly : s.index.OnlyProducer p n) :
    (ReadByName es (s.generate options).bindings p n ↔
        s.index.OpenTo p n ∧ s.index.ReadOutside p) ∧
      (ReportedUnseen (s.generate options).diagnostics p n ↔
        ¬ (s.index.OpenTo p n ∧ s.index.ReadOutside p)) ∧
      (∃ e ∈ es, e.begins? = some n) ∧
      (¬ (s.index.OpenTo p n ∧ s.index.ReadOutside p) →
        ∃ input, s.index.HasInput (s.plan options.suffixLength).pass.table P input ∧
          ∀ e ∈ es, e.begins? = some n → e.source? = input) := by
  obtain ⟨functions, main, hnamed, rfl, hfindings⟩ := Snapshot.plan_spec hs h
  have hg := hnamed.consistent
  have hwritten : P ∈ s.index.written functions main :=
    (hnamed.mem_written_iff (List.ne_nil_of_mem hn)).mpr hP
  obtain ⟨-, rfl⟩ := hg.mem_scopeAt.mp hn
  have hreadable := hnamed.isSome_readName?_iff hP ((hg.nodup_subset_ancestors n).2 hp)
  rw [hg.readable_inside_iff hp] at hreadable
  have houtside : p ∉ (s.index.scopeAt (s.index.parent? n)).ids := by
    intro hmem
    refine hg.acyclic p ?_
    show p ∈ s.index.ancestors p
    rwa [hg.ancestors_eq, (hg.mem_scopeAt.mp hmem).2, ← hg.ancestors_eq]
  have hproducers : (s.index.scopeAt (s.index.parent? n)).producers n = [p] := by
    rw [Scope.producers_eq_singleton_iff, Index.scopeAt_index]
    exact honly
  have hunseen := @reported_iff s options functions main _ order n hnamed hfindings hwritten
    hsorted hn (.unseenProducer n p) rfl none
  obtain ⟨input, hinput, ⟨e, he, hbegins, hsaid⟩, -⟩ :=
    hnamed.exists_begins_with_input hwritten hsorted hn hhead
  refine ⟨?_, ?_, ⟨e, he, hbegins⟩, fun hnot => ⟨input, hinput, fun e' he' hbegins' => ?_⟩⟩
  · rw [← hreadable]
    exact (hnamed.readByName_iff hwritten hsorted hn honly).trans (and_iff_right hhead)
  · rw [← hreadable]
    refine hunseen.trans ((and_iff_right hhead).trans ?_)
    cases hname : s.index.readName? (s.plan options.suffixLength).pass.table
        (s.index.parent? n) p with
    | some name => simp [Layout.inflow_of_named hproducers hname]
    | none => simp [Layout.inflow_of_unseen hproducers hname houtside]
  · have hname := hreadable.not.mpr hnot
    rw [Bool.not_eq_true, Option.isSome_eq_false_iff, Option.isNone_iff_eq_none] at hname
    rw [hnamed.eq_of_begins he' he hbegins' hbegins, hsaid,
      Layout.inflow_of_unseen hproducers hname houtside]

/-- `use` stands in the loop `each` and `inner` in the branch `cond`.  Both have their container as
only producer, and `cond` is read by `after` as well. -/
def ownReaders : Snapshot where
  blocks := [
    { id := "each", container := some (.forEach ["use"]) }, { id := "use", command := "Out-File" },
    { id := "cond", container := some (.ifElse "" ["inner"] []) },
    { id := "inner", command := "Write-Log" }, { id := "after", command := "Out-Host" }]
  connections := [
    { source := "each", target := "use" }, { source := "cond", target := "inner" },
    { source := "cond", target := "after" }]

theorem own_result_read_iff_ownReaders :
    ∃ es, (ownReaders.plan 4).entries? = some es ∧
      ReadByName es (ownReaders.generate {}).bindings "cond" "inner" ∧
      ReportedUnseen (ownReaders.generate {}).diagnostics "each" "use" ∧
      (∃ e ∈ es, e.begins? = some "use") ∧
      ∀ e ∈ es, e.begins? = some "use" → e.source? = some .item := by
  have hvalid : ownReaders.Valid := by constructor <;> decide
  have hplan : (ownReaders.plan 4).entries?.isSome := by decide +kernel
  obtain ⟨es, hes⟩ := Option.isSome_iff_exists.mp hplan
  have honly : ∀ p n, (ownReaders.index.scopeAt none).producers n = [p] →
      ownReaders.index.OnlyProducer p n := fun p n => Scope.producers_eq_singleton_iff.mp
  have hinner := @own_result_read_iff ownReaders hvalid {} es hes (some ⟨"cond", .thenZone⟩)
    (by decide +kernel) ["inner"] (by decide +kernel) "inner" "cond" (by decide +kernel)
    (by unfold Scope.IsHead; decide +kernel) (by decide +kernel) (honly _ _ (by decide +kernel))
  have huse := @own_result_read_iff ownReaders hvalid {} es hes (some ⟨"each", .body⟩)
    (by decide +kernel) ["use"] (by decide +kernel) "use" "each" (by decide +kernel)
    (by unfold Scope.IsHead; decide +kernel) (by decide +kernel) (honly _ _ (by decide +kernel))
  have hread : ownReaders.index.OpenTo "cond" "inner" ∧ ownReaders.index.ReadOutside "cond" := by
    refine ⟨by unfold Index.OpenTo; decide +kernel, "after", ?_, by decide +kernel,
      by decide +kernel⟩
    exact ⟨{ source := "cond", target := "after" }, by decide +kernel, rfl, rfl⟩
  have hunread : ¬ (ownReaders.index.OpenTo "each" "use" ∧
      ownReaders.index.ReadOutside "each") := by
    rintro ⟨-, m, ⟨c, hc, hsource, rfl⟩, hnot, -⟩
    have hnone : ∀ c ∈ ownReaders.index.connections, c.source = "each" →
        "each" ∈ ownReaders.index.ancestors c.target := by decide +kernel
    exact hnot (hnone c hc hsource)
  obtain ⟨input, hinput, hsource⟩ := huse.2.2.2 hunread
  have htop : ownReaders.index.parent? "each" = none := by decide +kernel
  have hitem : ownReaders.index.HasInput (ownReaders.plan 4).pass.table
      (some ⟨"each", .body⟩) (some .item) :=
    .zone ⟨"each", .body⟩ { id := "each", container := some (.forEach ["use"]) }
      (by decide +kernel) none (by rw [htop]; exact .top)
      ⟨none, none, .forEach, .body, some .item⟩ (by decide +kernel) rfl
  obtain rfl := hinput.unique hitem
  exact ⟨es, hes, hinner.1.mpr hread, huse.2.1.mpr hunread, huse.2.2.1, hsource⟩

/-- `inner` and `after` both read the branch `cond` in which `inner` stands. -/
def ownBranch : Snapshot where
  blocks := [
    { id := "cond", title := "Check", container := some (.ifElse "" ["inner"] []) },
    { id := "inner", command := "Write-Log" }, { id := "after", command := "Out-Host" }]
  connections := [{ source := "cond", target := "inner" }, { source := "cond", target := "after" }]

/-- The result of `cond` is read inside it, before it is assigned, and nothing is said. -/
theorem own_result_read_inside :
    ownBranch.Valid ∧ "cond" ∈ ownBranch.index.ancestors "inner" ∧
      ownBranch.index.OnlyProducer "cond" "inner" ∧
      ReadByName ((ownBranch.plan 4).entries?.getD []) (ownBranch.generate {}).bindings "cond"
        "inner" ∧
      (ownBranch.generate {}).diagnostics = [] := by
  refine ⟨by constructor <;> decide, by decide +kernel, ?_, ⟨"Check_cond", by decide +kernel⟩,
    by decide +kernel⟩
  exact (@Scope.producers_eq_singleton_iff (ownBranch.index.scopeAt none) _ _).mp
    (by decide +kernel)

end BlockScript
