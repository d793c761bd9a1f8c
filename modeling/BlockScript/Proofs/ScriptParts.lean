import BlockScript.Proofs.EmissionLayout
import BlockScript.Proofs.LayoutEntries

/-!
# How a script is put together

A script is made of few kinds of parts: pipelines, parts between an opening and its closing,
markers of zones with a cycle, and fillers that are the same in every script.
`Layout.Composed` says so of a layout, and of its findings too: each of them is a warning, or it
stands beside the marker of its zone.  What holds of all these parts holds of every script, by
induction on `Layout.Composed`.  Banners and definitions of functions stand in whole scripts only,
not in the bodies that these are made of.

* `Source.Provided`: what can be piped into the statements of a script.
* `Layout.Composed.partEntry`: what an entry of such a layout can be.
* `Layout.composed_zone`: a zone is put together so, by induction on the levels left.
* `Layout.composed_script`: **so is a script**, and with it every generation that does not stop at
  a cycle (`Snapshot.Valid.composed_generate`).
-/

namespace BlockScript

open Emit

/-- What can be piped into a statement when the results have the names of the table: nothing, the
item of a loop, the parameter of a function, or the variable of a block that has one. -/
inductive Source.Provided (t : Table) : Option Source → Prop
  | nothing : Provided t none
  | item : Provided t (some .item)
  | parameter (text : String) : Provided t (some (.parameter (Naming.identifier text)))
  | named (producer : BlockId) (name : String) (name_eq : t.nameOf producer = some name) :
      Provided t (some (.variable producer name))

theorem Plan.lines_header (size : Int) : header.flatMap (Entry.lines size) =
    [rule, "# Auto-generated PowerShell 5.1 Script", rule, ""] := rfl

/-- An entry that says nothing about the blocks, of a whole script or of a body. -/
inductive Entry.Filler : Bool → Entry → Prop
  | blank (whole : Bool) : Filler whole .blank
  | emptyZone (whole : Bool) (level : Int) (place : Place) : Filler whole (.emptyZone level place)
  | parameters (whole : Bool) (level : Int) (text : String) :
      Filler whole (.parameters level (Naming.identifier text))
  | functionsBanner : Filler true (.comment Plan.functionsBanner)
  | executionBanner : Filler true (.comment Plan.executionBanner)

namespace Layout

section

variable (g : Index) (t : Table)

/-- What stands at an opening that `owner` has in a whole script or in a body. -/
inductive Opens (owner : BlockId) : Bool → Option String → Option Source → Opening → Prop
  | branch (whole : Bool) (block : Block) (block_eq : g.block? owner = some block)
      (source : Option Source) (provided : Source.Provided t source) (b : Branch)
      (mem : b ∈ branches g block (t.nameOf owner) source) :
      Opens owner whole b.target b.source b.what
  | function (block : Block) (block_eq : g.block? owner = some block) (name inputParam : String)
      (children : List BlockId)
      (container_eq : block.container = some (.function name inputParam children)) :
      Opens owner true none none (.function (Container.resolveFunctionName name))
  | process (whole : Bool) : Opens owner whole none none .process

/-- A layout as whole scripts and bodies are put together. -/
inductive Composed (whole : Bool) : Layout → Prop
  | nothing : Composed whole {}
  | append (a b : Layout) (left : Composed whole a) (right : Composed whole b) :
      Composed whole ⟨a.entries ++ b.entries, a.findings ++ b.findings⟩
  | warning (f : Finding) (level_eq : f.level = .warning) : Composed whole { findings := [f] }
  | filler (e : Entry) (filler : e.Filler whole) : Composed whole { entries := [e] }
  | pipeline (P : Option Place) (order : List BlockId)
      (ordered : OrderedScope (g.scopeAt P) order) (c : Chain)
      (mem : c ∈ (g.scopeAt P).chains order) (level : Int) (source : Option Source)
      (provided : Source.Provided t source) :
      Composed whole { entries := [.pipeline level (t.nameOf c.terminal) source
        (c.members.filterMap g.block?)] }
  | framed (level : Int) (owner : BlockId) (target : Option String) (source : Option Source)
      (what : Opening) (opens : Opens g t owner whole target source what) (inner : Layout)
      (inside : Composed whole inner) :
      Composed whole ⟨.opening level owner target source what :: inner.entries ++
        [.closing level owner], inner.findings⟩
  | broken (level : Int) (place : Place) (cycle : List BlockId) :
      Composed whole ⟨[.brokenZone level place], [.zoneCycle place cycle]⟩

/-- An entry of a whole script or of a body. -/
inductive PartEntry (whole : Bool) : Entry → Prop
  | filler (e : Entry) (filler : e.Filler whole) : PartEntry whole e
  | pipeline (P : Option Place) (order : List BlockId)
      (ordered : OrderedScope (g.scopeAt P) order) (c : Chain)
      (mem : c ∈ (g.scopeAt P).chains order) (level : Int) (source : Option Source)
      (provided : Source.Provided t source) :
      PartEntry whole (.pipeline level (t.nameOf c.terminal) source (c.members.filterMap g.block?))
  | opening (level : Int) (owner : BlockId) (target : Option String) (source : Option Source)
      (what : Opening) (opens : Opens g t owner whole target source what) :
      PartEntry whole (.opening level owner target source what)
  | closing (level : Int) (owner : BlockId) : PartEntry whole (.closing level owner)
  | broken (level : Int) (place : Place) : PartEntry whole (.brokenZone level place)

end

variable {g : Index} {t : Table} {whole : Bool}

theorem Composed.partEntry {part : Layout} (h : Composed g t whole part) :
    ∀ e ∈ part.entries, PartEntry g t whole e := by
  induction h with
  | nothing | warning => simp
  | append a b _ _ iha ihb => exact fun e he => (List.mem_append.mp he).elim (iha e) (ihb e)
  | filler e filler =>
    intro e he
    obtain rfl := List.mem_singleton.mp he
    exact .filler _ filler
  | pipeline P order ordered c mem level source provided =>
    intro e he
    obtain rfl := List.mem_singleton.mp he
    exact .pipeline P order ordered c mem level source provided
  | framed level owner target source what opens inner _ ih =>
    intro e he
    simp only [List.cons_append, List.mem_cons, List.mem_append, List.not_mem_nil, or_false] at he
    rcases he with rfl | he | rfl
    · exact .opening level owner target source what opens
    · exact ih e he
    · exact .closing level owner
  | broken level place cycle =>
    intro e he
    obtain rfl := List.mem_singleton.mp he
    exact .broken level place

theorem Composed.join {parts : List Layout} (h : ∀ part ∈ parts, Composed g t whole part) :
    Composed g t whole (Layout.join parts) := by
  induction parts with
  | nil => exact .nothing
  | cons part rest ih =>
    exact .append part (Layout.join rest) (h part List.mem_cons_self)
      (ih fun part hpart => h part (List.mem_cons_of_mem _ hpart))

theorem Composed.spaced {part : Layout} (h : Composed g t whole part) (separate : Bool) :
    Composed g t whole (Layout.spaced separate part) := by
  cases separate with
  | false => exact h
  | true =>
    have hblank : Composed g t whole ⟨part.entries ++ [.blank], part.findings ++ []⟩ :=
      .append _ _ h (.filler _ (.blank whole))
    rwa [List.append_nil] at hblank

/-- A part of the script under its banner. -/
theorem Composed.part {part : Layout} (h : Composed g t whole part) {banner : String}
    (hbanner : (Entry.comment banner).Filler whole) {blocks : List BlockId}
    (hempty : blocks = [] → part.findings = []) :
    Composed g t whole ⟨Plan.part banner blocks part.entries, part.findings⟩ := by
  cases blocks with
  | nil =>
    rw [hempty rfl]
    exact .nothing
  | cons id blocks =>
    exact .append _ _ (.filler _ hbanner) (.append _ _ (.filler _ (.blank whole)) h)

/-! ### What is piped into statements -/

theorem provided_inflow {P : Option Place} {input : Option Source}
    (hinput : Source.Provided t input) (id : BlockId) :
    Source.Provided t (inflow g t P input id).1 := by
  rw [inflow]
  split
  · exact hinput
  · split
    · rename_i producer _ _ name hname
      rw [Index.readName?] at hname
      split at hname
      · exact .named producer name hname
      · cases hname
    · split
      · exact .nothing
      · exact hinput
  · exact .nothing

theorem provided_branch {block : Block} {target : Option String} {source : Option Source}
    (hsource : Source.Provided t source) {b : Branch} (hb : b ∈ branches g block target source) :
    Source.Provided t b.input := by
  rcases input_of_mem_branches hb with h | h | h
  · rwa [h]
  · rw [h]
    exact .item
  · rw [h]
    exact .nothing

/-- What there is to say about the producers of a block is a warning. -/
theorem composed_said (P : Option Place) (input : Option Source) (id : BlockId) :
    Composed g t whole { findings := (inflow g t P input id).2.toList } := by
  rw [inflow]
  split
  · exact .nothing
  · split
    · exact .nothing
    · split
      · exact .nothing
      · exact .warning _ rfl
  · exact .warning _ rfl

/-! ### Statements, scopes and zones -/

variable {zone : Place → Option Source → Int → Layout}

theorem composed_body {P : Option Place} {order : List BlockId}
    (hs : OrderedScope (g.scopeAt P) order)
    (hzone : ∀ place input level, Source.Provided t input →
      Composed g t whole (zone place input level)) (level : Int) {source : Option Source}
    (hsource : Source.Provided t source) {st : Statement}
    (hst : st ∈ (g.scopeAt P).statements order) :
    Composed g t whole (body g t zone level source st) := by
  cases st with
  | chain c => exact .pipeline P order hs c (hs.chain_mem_iff.mp hst) level source hsource
  | container id =>
    simp only [body]
    split
    · rename_i block hblock
      refine .join fun part hpart => ?_
      obtain ⟨b, hb, rfl⟩ := List.mem_map.mp hpart
      exact .framed level id _ _ _ (.branch whole block hblock source hsource b hb) _
        (hzone _ _ _ (provided_branch hsource hb))
    · exact .nothing

theorem composed_scope {P : Option Place} {order : List BlockId}
    (hs : OrderedScope (g.scopeAt P) order)
    (hzone : ∀ place input level, Source.Provided t input →
      Composed g t whole (zone place input level))
    {input : Option Source} (hinput : Source.Provided t input) (level : Int) (separate : Bool) :
    Composed g t whole (scope g t zone P order input level separate) := by
  refine .join fun part hpart => ?_
  obtain ⟨st, hst, rfl⟩ := List.mem_map.mp hpart
  refine Composed.spaced ?_ separate
  exact .append _ _ (composed_said P input st.lead)
    (composed_body hs hzone level (provided_inflow hinput st.lead) hst)

/-- **A zone is put together from these parts**, whatever depth it is cut off at. -/
theorem composed_zone (hg : g.Consistent) (depth : Nat) (place : Place) {input : Option Source}
    (level : Int) (hinput : Source.Provided t input) :
    Composed g t whole (Layout.zone g t depth place input level) := by
  induction depth generalizing place input level with
  | zero => exact .nothing
  | succ depth ih =>
    rw [Layout.zone]
    split
    · exact .filler _ (.emptyZone whole level place)
    · split
      · exact .broken level place _
      · rename_i order hsorted
        exact composed_scope (P := some place) (hg.orderedScope hsorted)
          (fun place _ level hinput => ih place level hinput) hinput level false

/-! ### Functions and the script -/

theorem composed_functionBody (hg : g.Consistent) (id : BlockId) (inputParam : String) :
    Composed g t whole (functionBody g t id inputParam) := by
  rw [functionBody]
  split
  · exact composed_zone hg _ _ _ .nothing
  · exact .append _ _ (.filler _ (.parameters whole 1 _)) (.framed 1 id none none .process
      (.process whole) _ (composed_zone hg _ _ _ (.parameter _)))

theorem composed_definition (hg : g.Consistent) (id : BlockId) :
    Composed g t true (definition g t id) := by
  rw [definition]
  split
  · rename_i name inputParam children hc
    obtain ⟨block, hblock, hc⟩ := Option.bind_eq_some_iff.mp hc
    exact .framed 0 id none none _ (.function block hblock name inputParam children hc) _
      (composed_functionBody hg id inputParam)
  · exact .nothing

theorem composed_execution {functions main : List BlockId} (h : g.Ordering functions main) :
    Composed g t whole (execution g t main) := by
  rw [execution]
  split
  · exact .nothing
  · exact composed_scope h.orderedTop
      (fun place _ level hinput => composed_zone h.consistent _ place level hinput) .nothing 0 true

/-- **A script is put together from these parts.** -/
theorem composed_script {functions main : List BlockId} (h : g.Ordering functions main) :
    Composed g t true (script g t functions main) := by
  have hdefinitions : Composed g t true (definitions g t functions) := by
    refine .join fun part hpart => ?_
    obtain ⟨id, -, rfl⟩ := List.mem_map.mp hpart
    exact (composed_definition h.consistent id).spaced true
  refine .append _ _ (hdefinitions.part .functionsBanner ?_)
    ((composed_execution h).part .executionBanner ?_)
  · rintro rfl
    rfl
  · rintro rfl
    rfl

end Layout

/-- A generation stops at a cycle, or it writes a script that is put together from these parts. -/
theorem Snapshot.Valid.composed_generate {s : Snapshot} (hs : s.Valid)
    (options : GeneratorOptions) :
    (∃ cycle, (s.generate options).script = Plan.cycleMarker ++ "\n" ∧
        (s.generate options).findings = s.findings ++ [.graphCycle cycle]) ∨
      ∃ part, Layout.Composed s.index (s.plan options.suffixLength).pass.table true part ∧
        (s.generate options).script = Plan.join (Plan.lines options part.entries) ∧
        (s.generate options).findings = s.findings ++ part.findings := by
  simp only [generate, Plan.generation, Plan.text]
  cases ho : orders s.index with
  | error cycle =>
    obtain ⟨hentries, -, hfindings⟩ := plan_of_cycle options.suffixLength ho
    exact Or.inl ⟨cycle, by rw [hentries], hfindings⟩
  | ok o =>
    obtain ⟨functions, main⟩ := o
    obtain ⟨-, hentries, hfindings⟩ := plan_of_orders hs options.suffixLength ho
    have hordering := hs.consistent.ordering ho
    exact Or.inr ⟨_, Layout.composed_script hordering, by rw [hentries], hfindings⟩

end BlockScript
