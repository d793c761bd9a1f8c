import BlockScript.Proofs.OwnResults
import BlockScript.Proofs.TextMarks

/-!
# Implicit inputs stay where they are given

A loop over items gives its body the item, a function gives its body the parameter, and a catch
zone is given nothing.  From there an input goes inward, from container to container, as long as
each takes the input of its scope (`Index.TakesInput`) and hands on what it takes
(`Index.HandsOn`); `Index.HandedOn` is the whole way.  Zones with an input of their own hand on
nothing, so the zone where an input comes from is the first such zone on the way outward
(`Index.HandedOn.inputZone?_eq`), and every input comes from somewhere (`Index.HasInput.origin`).
-/

namespace BlockScript

open Emit

namespace Index

variable {g : Index} {t : Table}

/-! ### Zones with an input of their own -/

/-- The kind of a container. -/
def kind? (g : Index) (id : BlockId) : Option ContainerKind :=
  ((g.block? id).bind Block.container).map Container.kind

/-- What a function has as its parameter; it may be blank. -/
def inputParam? (g : Index) (id : BlockId) : Option String :=
  match (g.block? id).bind Block.container with
  | some (.function _ inputParam _) => some inputParam
  | _ => none

/-- The zone is the body of a loop over items, a catch zone, or the body of a function. -/
def opensInput (g : Index) (place : Place) : Bool :=
  match g.kind? place.container, place.zone with
  | some .forEach, .body | some .tryCatch, .catchZone | some .function, .body => true
  | _, _ => false

/-- The zones around a block, innermost first. -/
def zonesAround (g : Index) (n : BlockId) : List Place := (n :: g.ancestors n).filterMap g.parent?

/-- Going outward from a block, the first zone with an input of its own. -/
def inputZone? (g : Index) (n : BlockId) : Option Place := (g.zonesAround n).find? g.opensInput

theorem Consistent.zonesAround_of_some (h : g.Consistent) {n : BlockId} {place : Place}
    (hn : g.parent? n = some place) : g.zonesAround n = place :: g.zonesAround place.container := by
  rw [zonesAround, List.filterMap_cons_some hn, h.ancestors_of_some hn, zonesAround]

/-! ### The way inward -/

/-- What is piped into the block is the input of its scope. -/
def TakesInput (g : Index) (t : Table) (n : BlockId) : Prop :=
  ∀ input, (Layout.inflow g t (g.parent? n) input n).1 = input

/-- What is piped into the container is the input of this zone of it. -/
def HandsOn (g : Index) (t : Table) (place : Place) : Prop :=
  ∃ block, g.block? place.container = some block ∧ ∀ source,
    ∃ b ∈ branches g block (t.nameOf place.container) source,
      b.zone = place.zone ∧ b.input = source

/-- The scope has its input from the zone `origin`: it is that zone, or the zone of a container that
takes and hands on what comes from there. -/
inductive HandedOn (g : Index) (t : Table) (origin : Place) : Option Place → Prop
  | own : HandedOn g t origin (some origin)
  | inward (place : Place) (outer : HandedOn g t origin (g.parent? place.container))
      (takes : g.TakesInput t place.container) (hands : g.HandsOn t place) :
      HandedOn g t origin (some place)

theorem HandsOn.opensInput_eq {place : Place} (h : g.HandsOn t place) :
    g.opensInput place = false := by
  obtain ⟨block, hblock, hhands⟩ := h
  obtain ⟨container, zone⟩ := place
  simp only [opensInput, kind?, hblock, Option.bind_some]
  cases branchList g block with
  | nothing _ hbranches =>
    obtain ⟨b, hb, -⟩ := hhands none
    simp [hbranches] at hb
  | forEach _ _ hbranches =>
    obtain ⟨b, hb, -, hinput⟩ := hhands none
    rw [hbranches, List.mem_singleton] at hb
    rw [hb] at hinput
    cases hinput
  | thenOnly _ _ _ hc | thenElse _ _ _ hc | whileLoop _ _ hc => rw [hc]; rfl
  | tryCatch _ _ hc hbranches =>
    rw [hc]
    cases zone with
    | catchZone =>
      obtain ⟨b, hb, hzone, hinput⟩ := hhands (some .item)
      simp only [hbranches, List.mem_cons, List.not_mem_nil, or_false] at hb
      rcases hb with rfl | rfl
      · cases hzone
      · cases hinput
    | _ => rfl

/-- **What is handed on comes from the first zone outward that has an input of its own.** -/
theorem HandedOn.inputZone?_eq (hg : g.Consistent) {origin : Place} {P : Option Place}
    (h : g.HandedOn t origin P) (hopens : g.opensInput origin) {n : BlockId}
    (hn : g.parent? n = P) : g.inputZone? n = some origin := by
  induction h generalizing n with
  | own => rw [inputZone?, hg.zonesAround_of_some hn, List.find?_cons_of_pos hopens]
  | inward place outer takes hands ih =>
    rw [inputZone?, hg.zonesAround_of_some hn,
      List.find?_cons_of_neg (by rw [hands.opensInput_eq]; simp)]
    exact ih rfl

theorem HandedOn.hasInput {origin : Place} {P : Option Place} (h : g.HandedOn t origin P)
    {input : Option Source} (horigin : g.HasInput t (some origin) input) :
    g.HasInput t P input := by
  induction h with
  | own => exact horigin
  | inward place outer takes hands ih =>
    obtain ⟨block, hblock, hhands⟩ := hands
    obtain ⟨b, hb, hzone, rfl⟩ := hhands input
    exact .zone place block hblock b.input ih b (by rwa [takes]) hzone

/-! ### Where inputs come from -/

theorem takesInput_or (g : Index) (t : Table) (n : BlockId) :
    g.TakesInput t n ∨ ∀ input, (Layout.inflow g t (g.parent? n) input n).1 = none ∨
      ∃ p name, (Layout.inflow g t (g.parent? n) input n).1 = some (.variable p name) := by
  simp only [TakesInput, Layout.inflow]
  split
  · exact Or.inl fun input => rfl
  · split
    · exact Or.inr fun input => Or.inr ⟨_, _, rfl⟩
    · split
      · exact Or.inr fun input => Or.inl rfl
      · exact Or.inl fun input => rfl
  · exact Or.inr fun input => Or.inl rfl

/-- A zone gets what is piped into its container, or nothing, or the item of a loop. -/
theorem handsOn_or_of_mem_branches {place : Place} {block : Block}
    (hblock : g.block? place.container = some block) {source : Option Source} {b : Branch}
    (hb : b ∈ branches g block (t.nameOf place.container) source) (hzone : b.zone = place.zone) :
    g.HandsOn t place ∧ b.input = source ∧ place.zone ≠ .catchZone ∨ b.input = none ∨
      b.input = some .item ∧ g.kind? place.container = some .forEach ∧ place.zone = .body := by
  obtain ⟨container, zone⟩ := place
  obtain rfl : b.zone = zone := hzone
  have hhands : (∀ source', ∃ b' ∈ branches g block (t.nameOf container) source',
      b'.zone = b.zone ∧ b'.input = source') → g.HandsOn t ⟨container, b.zone⟩ :=
    fun hall => ⟨block, hblock, hall⟩
  cases branchList g block with
  | nothing _ hbranches => simp [hbranches] at hb
  | thenOnly _ _ _ _ _ hbranches | whileLoop _ _ _ hbranches =>
    simp only [hbranches, List.mem_singleton] at hb hhands
    subst hb
    exact Or.inl ⟨hhands fun source' => ⟨_, rfl, rfl, rfl⟩, rfl, by simp⟩
  | thenElse _ _ _ _ hbranches =>
    simp only [hbranches, List.mem_cons, List.not_mem_nil, or_false] at hb hhands
    rcases hb with rfl | rfl
    · exact Or.inl ⟨hhands fun source' => ⟨_, Or.inl rfl, rfl, rfl⟩, rfl, by simp⟩
    · exact Or.inl ⟨hhands fun source' => ⟨_, Or.inr rfl, rfl, rfl⟩, rfl, by simp⟩
  | tryCatch _ _ _ hbranches =>
    simp only [hbranches, List.mem_cons, List.not_mem_nil, or_false] at hb hhands
    rcases hb with rfl | rfl
    · exact Or.inl ⟨hhands fun source' => ⟨_, Or.inl rfl, rfl, rfl⟩, rfl, by simp⟩
    · exact Or.inr (Or.inl rfl)
  | forEach _ hc hbranches =>
    simp only [hbranches, List.mem_singleton] at hb
    subst hb
    exact Or.inr (Or.inr ⟨rfl, by simp [kind?, hblock, hc, Container.kind], rfl⟩)

theorem exists_function_of_inputParam? {f : BlockId} {param : String}
    (h : g.inputParam? f = some param) : ∃ block name children, g.block? f = some block ∧
      block.container = some (.function name param children) := by
  rw [inputParam?] at h
  split at h
  · rename_i name inputParam children hcontainer
    obtain rfl := Option.some.inj h
    obtain ⟨block, hblock, hc⟩ := Option.bind_eq_some_iff.mp hcontainer
    exact ⟨block, name, children, hblock, hc⟩
  · cases h

theorem hasInput_body {f : BlockId} {param : String} (h : g.inputParam? f = some param) :
    g.HasInput t (some ⟨f, .body⟩) (Source.ofParameter param) := by
  obtain ⟨block, name, children, hblock, hc⟩ := exists_function_of_inputParam? h
  exact .body f block hblock name param children hc

theorem opensInput_body {f : BlockId} {param : String} (h : g.inputParam? f = some param) :
    g.opensInput ⟨f, .body⟩ := by
  obtain ⟨block, name, children, hblock, hc⟩ := exists_function_of_inputParam? h
  simp [opensInput, kind?, hblock, hc, Container.kind]

/-- **Every input comes from somewhere**: unless a block gives it by name, it is handed on from the
body of a loop, whose item it is, or from the body of a function, whose parameter it is. -/
theorem HasInput.origin {P : Option Place} {input : Option Source} (h : g.HasInput t P input) :
    input = none ∨ (∃ p name, input = some (.variable p name)) ∨
      ∃ id, g.HandedOn t ⟨id, .body⟩ P ∧
        (input = some .item ∧ g.kind? id = some .forEach ∨
          ∃ param, g.inputParam? id = some param ∧ input = Source.ofParameter param) := by
  induction h with
  | top => exact Or.inl rfl
  | body id block block_eq name inputParam children container_eq =>
    exact Or.inr (Or.inr ⟨id, .own, Or.inr
      ⟨inputParam, by simp [inputParam?, block_eq, container_eq], rfl⟩⟩)
  | zone place block block_eq input outer b mem zone_eq ih =>
    rcases handsOn_or_of_mem_branches block_eq mem zone_eq with
      ⟨hhands, hinput, -⟩ | hnone | ⟨hitem, hkind, hbody⟩
    · rw [hinput]
      rcases takesInput_or g t place.container with htakes | hother
      · -- the input comes from further out
        rw [htakes]
        rcases ih with hnone | hvariable | ⟨id, houter, hgiven⟩
        · exact Or.inl hnone
        · exact Or.inr (Or.inl hvariable)
        · exact Or.inr (Or.inr ⟨id, .inward place houter htakes hhands, hgiven⟩)
      · exact (hother input).imp_right Or.inl
    · exact Or.inl hnone
    · obtain ⟨container, zone⟩ := place
      obtain rfl : zone = .body := hbody
      exact Or.inr (Or.inr ⟨container, .own, Or.inl ⟨hitem, hkind⟩⟩)

/-- Where the item of a loop is the input, that loop is the first zone outward with one of its
own. -/
theorem HasInput.inputZone?_of_item (hg : g.Consistent) {n : BlockId}
    (h : g.HasInput t (g.parent? n) (some .item)) :
    ∃ loop, g.inputZone? n = some ⟨loop, .body⟩ ∧ g.kind? loop = some .forEach := by
  rcases h.origin with hnone | ⟨p, name, hvariable⟩ | ⟨loop, hhanded, ⟨-, hkind⟩ | hfunction⟩
  · cases hnone
  · cases hvariable
  · exact ⟨loop, hhanded.inputZone?_eq hg (by simp [opensInput, hkind]) rfl, hkind⟩
  · obtain ⟨param, -, hparam⟩ := hfunction
    rw [Source.ofParameter] at hparam
    split at hparam <;> cases hparam

theorem HasInput.exists_handedOn_of_parameter {P : Option Place} {name : String}
    (h : g.HasInput t P (some (.parameter name))) :
    ∃ f param, g.inputParam? f = some param ∧
      Source.ofParameter param = some (.parameter name) ∧ g.HandedOn t ⟨f, .body⟩ P := by
  rcases h.origin with hnone | ⟨p, name, hvariable⟩ | ⟨f, hhanded, ⟨hitem, -⟩ | hfunction⟩
  · cases hnone
  · cases hvariable
  · cases hitem
  · obtain ⟨param, hparam, heq⟩ := hfunction
    exact ⟨f, param, hparam, heq.symm, hhanded⟩

theorem HasInput.provided {P : Option Place} {input : Option Source} (h : g.HasInput t P input) :
    Source.Provided t input := by
  induction h with
  | top => exact .nothing
  | body id block block_eq name inputParam children container_eq =>
    rw [Source.ofParameter]
    split
    · exact .nothing
    · exact .parameter _
  | zone place block block_eq input outer b mem zone_eq ih =>
    exact Layout.provided_branch (Layout.provided_inflow ih _) mem

/-! ### Scopes without an input -/

/-- The scope is given nothing: it is the top level, a catch zone, or the body of a function without
a parameter. -/
inductive Bare (g : Index) : Option Place → Prop
  | top : Bare g none
  | catchZone (container : BlockId) : Bare g (some ⟨container, .catchZone⟩)
  | body (f : BlockId) (param : String) (param_eq : g.inputParam? f = some param)
      (blank : Text.isBlankText param) : Bare g (some ⟨f, .body⟩)

theorem HasInput.eq_none_of_bare {P : Option Place} {input : Option Source}
    (h : g.HasInput t P input) (hbare : g.Bare P) : input = none := by
  cases hbare with
  | top => exact h.unique .top
  | body f param param_eq blank =>
    exact (h.unique (hasInput_body param_eq)).trans (if_pos blank)
  | catchZone container =>
    cases h with
    | zone _ block block_eq input outer b mem zone_eq =>
      rcases handsOn_or_of_mem_branches block_eq mem zone_eq with
        ⟨-, -, hzone⟩ | hnone | ⟨-, -, hbody⟩
      · exact absurd rfl hzone
      · exact hnone
      · cases hbody

/-! ### What is piped into statements -/

namespace Named

variable {functions main : List BlockId} {n : BlockId} {e : Entry}

/-- What is piped into a statement is what `inflow` says for the input of its scope. -/
theorem exists_hasInput_of_begins (h : g.Named t functions main)
    (he : e ∈ (Layout.script g t functions main).entries) (hbegins : e.begins? = some n) :
    ∃ input, g.HasInput t (g.parent? n) input ∧
      e.source? = (Layout.inflow g t (g.parent? n) input n).1 := by
  obtain ⟨hwritten, ⟨order, hsorted, st, hst, rfl⟩, -⟩ :=
    Layout.begunIn_script h.toOrdering e he n hbegins
  obtain ⟨input, hinput, ⟨e', he', hbegins', hsource⟩, -⟩ :=
    Layout.begunAll_script h.toOrdering _ hwritten order hsorted st hst
  exact ⟨input, hinput, by rw [h.eq_of_begins he he' hbegins hbegins', hsource]⟩

theorem hasInput_of_source (h : g.Named t functions main)
    (he : e ∈ (Layout.script g t functions main).entries) (hbegins : e.begins? = some n)
    {source : Source} (hsource : e.source? = some source)
    (hnot : ∀ p name, source ≠ .variable p name) :
    g.TakesInput t n ∧ g.HasInput t (g.parent? n) (some source) := by
  obtain ⟨input, hinput, hsaid⟩ := h.exists_hasInput_of_begins he hbegins
  rw [hsource] at hsaid
  rcases takesInput_or g t n with htakes | hother
  · rw [htakes] at hsaid
    exact ⟨htakes, hsaid ▸ hinput⟩
  · rcases hother input with hnone | ⟨p, name, hvariable⟩
    · rw [hnone] at hsaid
      cases hsaid
    · rw [hvariable, Option.some.injEq] at hsaid
      exact absurd hsaid (hnot p name)

theorem provided_of_begins (h : g.Named t functions main)
    (he : e ∈ (Layout.script g t functions main).entries) (hbegins : e.begins? = some n) :
    Source.Provided t e.source? := by
  obtain ⟨input, hinput, hsaid⟩ := h.exists_hasInput_of_begins he hbegins
  rw [hsaid]
  exact Layout.provided_inflow hinput.provided n

theorem begins_of_no_producer (h : g.Named t functions main)
    (he : e ∈ (Layout.script g t functions main).entries) (hn : n ∈ e.rendered)
    (hnone : ∀ p, ¬ g.Feeds p n) : e.begins? = some n := by
  have hg := h.consistent
  obtain ⟨hid, hwritten⟩ := hg.mem_blocksOf.mp
    ((perm_rendered_script h.toOrdering).subset (List.mem_flatMap.mpr ⟨e, he, hn⟩))
  have hscope : n ∈ (g.scopeAt (g.parent? n)).ids := hg.mem_scopeAt.mpr ⟨hid, rfl⟩
  obtain ⟨order, hsorted⟩ :=
    (h.mem_written_iff (List.ne_nil_of_mem hscope)).mp hwritten _ (self_mem_scopesFrom _)
  have hhead : (g.scopeAt (g.parent? n)).IsHead order n := by
    by_contra hnot
    obtain ⟨u, -, hstreams⟩ := (hg.orderedScope hsorted).exists_fused hscope hnot
    obtain ⟨c, hc, hsource, htarget, -⟩ := hstreams.connection
    rw [scopeAt_index] at hc
    exact hnone u ⟨c, hc, hsource, htarget⟩
  obtain ⟨-, -, ⟨e', he', hbegins, -⟩, -⟩ :=
    h.exists_begins_with_input hwritten hsorted hscope hhead
  rwa [h.eq_of_mem_rendered he he' hn (Entry.mem_rendered_of_begins hbegins)]

end Named

end Index

/-! ### The text of an input -/

theorem Naming.IsName.exists_isAlphanum {l : List Char} (h : IsName l) : ∃ c ∈ l, c.isAlphanum := by
  cases h with
  | word _ ne chars =>
    obtain ⟨c, hc⟩ := List.exists_mem_of_ne_nil l ne
    exact ⟨c, hc, chars c hc⟩
  | join w rest ne chars =>
    obtain ⟨c, hc⟩ := List.exists_mem_of_ne_nil w ne
    exact ⟨c, List.mem_append_left _ hc, chars c hc⟩

/-- Only the item of a loop is written as `$_`: names have a letter or a digit. -/
theorem Source.Provided.eq_item {t : Table} (ht : t.Shaped) {source : Option Source}
    (h : Provided t source) (htext : source.map Source.text = some "$_") : source = some .item := by
  have hother : ∀ {name : String}, Naming.IsName name.toList → "$" ++ name ≠ "$_" := by
    intro name hname heq
    have hlist : name.toList = ['_'] := by simpa using congrArg String.toList heq
    obtain ⟨c, hc, hchar⟩ := hname.exists_isAlphanum
    rw [hlist, List.mem_singleton] at hc
    subst hc
    exact absurd hchar (by decide)
  cases h with
  | nothing => cases htext
  | item => rfl
  | parameter text => exact absurd (Option.some.inj htext) (hother (Naming.isName_identifier text))
  | named producer name name_eq =>
    exact absurd (Option.some.inj htext) (hother (ht producer name name_eq))

/-! ### Where inputs end -/

/-- **Implicit inputs never leave the construct that gives them.**  If `$_` is piped into the
statement of a block, then going outward from it, the first zone with an input of its own is the
body of a loop over items.  If what a function hands to its body becomes the input of a block's
scope, the first such zone is the body of that function; and a parameter that is piped into a
statement got there so.  A block without a producer whose scope is given nothing begins a statement
into which nothing is piped. -/
theorem implicit_inputs_stay {s : Snapshot} (hs : s.Valid) {suffixLength : Int} {es : List Entry}
    (h : (s.plan suffixLength).entries? = some es) (n : BlockId) :
    (∀ e ∈ es, e.begins? = some n → e.source?.map Source.text = some "$_" →
        ∃ loop, s.index.inputZone? n = some ⟨loop, .body⟩ ∧
          s.index.kind? loop = some .forEach) ∧
      (∀ f param, s.index.inputParam? f = some param →
        s.index.HandedOn (s.plan suffixLength).pass.table ⟨f, .body⟩ (s.index.parent? n) →
        s.index.inputZone? n = some ⟨f, .body⟩ ∧
          s.index.HasInput (s.plan suffixLength).pass.table (s.index.parent? n)
            (Source.ofParameter param)) ∧
      (∀ e ∈ es, e.begins? = some n → ∀ name, e.source? = some (.parameter name) →
        s.index.TakesInput (s.plan suffixLength).pass.table n ∧
          ∃ f param, s.index.inputParam? f = some param ∧
            Source.ofParameter param = some (.parameter name) ∧
            s.index.HandedOn (s.plan suffixLength).pass.table ⟨f, .body⟩ (s.index.parent? n)) ∧
      ((∀ p, ¬ s.index.Feeds p n) → s.index.Bare (s.index.parent? n) →
        ∀ e ∈ es, n ∈ e.rendered → e.begins? = some n ∧ e.source? = none) := by
  obtain ⟨functions, main, hnamed, rfl, -⟩ := Snapshot.plan_spec hs h
  have hg := hnamed.consistent
  refine ⟨fun e he hbegins htext => ?_, fun f param hparam hhanded => ?_,
    fun e he hbegins name hsource => ?_, fun hnone hbare e he hn => ?_⟩
  · have hitem := (hnamed.provided_of_begins he hbegins).eq_item (hs.shaped_plan suffixLength) htext
    obtain ⟨-, hinput⟩ := hnamed.hasInput_of_source he hbegins hitem (by simp)
    exact hinput.inputZone?_of_item hg
  · exact ⟨hhanded.inputZone?_eq hg (Index.opensInput_body hparam) rfl,
      hhanded.hasInput (Index.hasInput_body hparam)⟩
  · obtain ⟨htakes, hinput⟩ := hnamed.hasInput_of_source he hbegins hsource (by simp)
    exact ⟨htakes, hinput.exists_handedOn_of_parameter⟩
  · have hbegins := hnamed.begins_of_no_producer he hn hnone
    obtain ⟨input, hinput, hsaid⟩ := hnamed.exists_hasInput_of_begins he hbegins
    have hproducers : (s.index.scopeAt (s.index.parent? n)).producers n = [] := by
      refine List.eq_nil_iff_forall_not_mem.mpr fun p hp => ?_
      rw [Scope.mem_producers, Index.scopeAt_index] at hp
      exact hnone p hp
    refine ⟨hbegins, ?_⟩
    rw [hsaid, Layout.inflow, hproducers]
    exact hinput.eq_none_of_bare hbare

/-- `use` stands in a loop, in the try zone of `guard`, and `log` in its catch zone; `inner` stands
in a branch of the function `task`, and `again` in a loop of it. -/
def nestedInputs : Snapshot where
  blocks := [
    { id := "loop", container := some (.forEach ["guard"]) },
    { id := "guard", container := some (.tryCatch ["use"] ["log"]) },
    { id := "use", command := "Out-File" }, { id := "log", command := "Write-Log" },
    { id := "task", container := some (.function "Invoke-Task" "Path" ["cond", "each"]) },
    { id := "cond", container := some (.ifElse "" ["inner"] []) },
    { id := "inner", command := "Out-Host" },
    { id := "each", container := some (.forEach ["again"]) },
    { id := "again", command := "Out-Null" }]

theorem implicit_inputs_stay_nestedInputs :
    nestedInputs.Valid ∧ ∃ es, (nestedInputs.plan 4).entries? = some es ∧
      (∃ e ∈ es, e.begins? = some "use" ∧ e.source?.map Source.text = some "$_") ∧
      (∃ loop, nestedInputs.index.inputZone? "use" = some ⟨loop, .body⟩ ∧
        nestedInputs.index.kind? loop = some .forEach) ∧
      (∃ e ∈ es, e.begins? = some "inner" ∧ e.source? = some (.parameter "Path")) ∧
      (∃ f param, nestedInputs.index.inputParam? f = some param ∧
        nestedInputs.index.inputZone? "inner" = some ⟨f, .body⟩) ∧
      (∃ e ∈ es, "log" ∈ e.rendered) ∧ ∀ e ∈ es, "log" ∈ e.rendered → e.source? = none := by
  have hvalid : nestedInputs.Valid := by constructor <;> decide
  have hplan : (nestedInputs.plan 4).entries?.isSome := by decide +kernel
  obtain ⟨es, hes⟩ := Option.isSome_iff_exists.mp hplan
  obtain rfl : (nestedInputs.plan 4).entries?.getD [] = es := by rw [hes]; rfl
  have huse : ∃ e ∈ (nestedInputs.plan 4).entries?.getD [], e.begins? = some "use" ∧
      e.source?.map Source.text = some "$_" := by decide +kernel
  have hinner : ∃ e ∈ (nestedInputs.plan 4).entries?.getD [], e.begins? = some "inner" ∧
      e.source? = some (.parameter "Path") := by decide +kernel
  have hlog : ∃ e ∈ (nestedInputs.plan 4).entries?.getD [], "log" ∈ e.rendered := by decide +kernel
  refine ⟨hvalid, _, hes, huse, ?_, hinner, ?_, hlog, fun e he hrendered => ?_⟩
  · obtain ⟨e, he, hbegins, htext⟩ := huse
    exact (implicit_inputs_stay hvalid hes "use").1 e he hbegins htext
  · obtain ⟨e, he, hbegins, hsource⟩ := hinner
    obtain ⟨-, hstays, hcomes, -⟩ := implicit_inputs_stay hvalid hes "inner"
    obtain ⟨-, f, param, hparam, -, hhanded⟩ := hcomes e he hbegins "Path" hsource
    exact ⟨f, param, hparam, (hstays f param hparam hhanded).1⟩
  · have hproducers : ∀ c ∈ nestedInputs.index.connections, c.target ≠ "log" := by decide +kernel
    have hplace : nestedInputs.index.parent? "log" = some ⟨"guard", .catchZone⟩ := by
      decide +kernel
    refine ((implicit_inputs_stay hvalid hes "log").2.2.2 ?_ ?_ e he hrendered).2
    · rintro p ⟨c, hc, -, htarget⟩
      exact hproducers c hc htarget
    · rw [hplace]
      exact .catchZone "guard"

end BlockScript
