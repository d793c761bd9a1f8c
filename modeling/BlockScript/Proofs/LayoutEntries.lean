import BlockScript.Proofs.ScopeInputs

/-!
# Where the entries of a script come from

Every statement begins with one entry: a pipeline, or the opening of the first zone of a
container.  `Entry.begins?` is the block that leads the statement, `Entry.source?` what is piped
into it.

* `Layout.entryAt`: **an entry that begins a statement stands at the head of a statement of the
  scope, or inside a zone of a container of the scope**, behind the opening of that container.
* `Layout.begunIn_script`: what is piped into a statement is what `Layout.inflow` says for the
  scope of its lead.
-/

namespace BlockScript

open Emit

/-- Whether the opening is that of the first zone of a container. -/
def Opening.isFirst : Opening → Bool
  | .ifBranch _ | .forEach | .whileLoop _ | .tryBranch => true
  | _ => false

namespace Entry

/-- The block that leads the statement which the entry begins. -/
def begins? : Entry → Option BlockId
  | .pipeline _ _ _ stages => stages.head?.map Block.id
  | .opening _ owner _ _ what => if what.isFirst then some owner else none
  | _ => none

/-- What is piped into the statement. -/
def source? : Entry → Option Source
  | .pipeline _ _ source _ => source
  | .opening _ _ _ source _ => source
  | _ => none

end Entry

/-! ### The branches of a container -/

/-- The first branch has the target and the source; no other branch begins a statement. -/
theorem Emit.branches_eq_cons {g : Index} {block : Block} (hcf : block.isControlFlow)
    (target : Option String) (source : Option Source) :
    ∃ first rest, branches g block target source = first :: rest ∧ first.target = target ∧
      first.source = source ∧ first.what.isFirst ∧ ∀ b ∈ rest, b.what.isFirst = false := by
  cases branchList g block with
  | nothing hflow =>
    rw [hflow] at hcf
    cases hcf
  | thenOnly _ _ _ _ _ hbranches | thenElse _ _ _ _ hbranches | forEach _ _ hbranches
  | whileLoop _ _ _ hbranches | tryCatch _ _ _ hbranches =>
    simp [hbranches, Opening.isFirst]

theorem Emit.input_of_mem_branches {g : Index} {block : Block} {target : Option String}
    {source : Option Source} {b : Branch} (hb : b ∈ branches g block target source) :
    b.input = source ∨ b.input = some .item ∨ b.input = none := by
  revert b
  cases branchList g block <;> rename_i hbranches <;> simp [hbranches]

namespace Layout

variable {g : Index} {t : Table} {zone : Place → Option Source → Int → Layout}
  {P : Option Place} {order : List BlockId} {input : Option Source} {level : Int}
  {separate : Bool}

/-! ### Splitting the entries of a scope -/

/-- The entries of some statements of a scope. -/
def statementEntries (g : Index) (t : Table) (zone : Place → Option Source → Int → Layout)
    (P : Option Place) (input : Option Source) (level : Int) (separate : Bool)
    (sts : List Statement) : List Entry :=
  sts.flatMap fun st => (spaced separate (statement g t zone P input level st)).entries

theorem entries_scope : (scope g t zone P order input level separate).entries =
    statementEntries g t zone P input level separate ((g.scopeAt P).statements order) := by
  rw [scope, entries_join, List.flatMap_map]
  rfl

/-- The place of an entry that begins a statement: behind the statements `l₁`, at the head of the
next one, or in a zone of it. -/
inductive EntryAt (g : Index) (t : Table) (zone : Place → Option Source → Int → Layout)
    (P : Option Place) (order : List BlockId) (input : Option Source) (level : Int)
    (separate : Bool) (before : List Entry) (e : Entry) (n : BlockId) : Prop
  /-- The entry begins a statement of the scope. -/
  | lead (l₁ : List Statement) (st : Statement) (l₂ : List Statement)
      (split : (g.scopeAt P).statements order = l₁ ++ st :: l₂) (lead_eq : st.lead = n)
      (before_eq : before = statementEntries g t zone P input level separate l₁)
      (source_eq : e.source? = (inflow g t P input n).1)
  /-- The entry stands in a zone of a container, whose own first opening is `opening`. -/
  | inner (l₁ : List Statement) (place : Place) (l₂ : List Statement)
      (split : (g.scopeAt P).statements order = l₁ ++ .container place.container :: l₂)
      (place_mem : place ∈ g.zonesOf P order) (inside : Option Source)
      (opening : Entry) (mid front back : List Entry)
      (zone_eq : (zone place inside (level + 1)).entries = front ++ e :: back)
      (begins_eq : opening.begins? = some place.container)
      (source_eq : opening.source? = (inflow g t P input place.container).1)
      (inside_eq : inside = opening.source? ∨ inside = some .item ∨ inside = none)
      (before_eq : before = statementEntries g t zone P input level separate l₁ ++
        opening :: mid ++ front)

theorem map_id_stages (hg : g.Consistent) (hs : OrderedScope (g.scopeAt P) order) {c : Chain}
    (hc : c ∈ (g.scopeAt P).chains order) :
    (c.members.filterMap g.block?).map Block.id = c.members :=
  Index.map_id_filterMap_block? fun id hid => (hg.mem_scopeAt.mp (hs.runs.inside c hc id hid).1).1

theorem begins?_pipeline (hg : g.Consistent) (hs : OrderedScope (g.scopeAt P) order) {c : Chain}
    (hc : c ∈ (g.scopeAt P).chains order) (target : Option String) (source : Option Source) :
    (Entry.pipeline level target source (c.members.filterMap g.block?)).begins? = some c.head := by
  have hhead := (hs.runs.inside c hc c.head c.head_mem).1
  obtain ⟨block, hblock⟩ := Index.exists_block? (hg.mem_scopeAt.mp hhead).1
  obtain ⟨-, hid⟩ := Index.mem_of_block? hblock
  simp [Entry.begins?, Chain.members, hblock, hid]

theorem exists_last_stage (hg : g.Consistent) (hs : OrderedScope (g.scopeAt P) order) {c : Chain}
    (hc : c ∈ (g.scopeAt P).chains order) :
    ∃ last, (c.members.filterMap g.block?).getLast? = some last ∧ last.id = c.terminal := by
  have hterminal := (hs.runs.inside c hc c.terminal c.terminal_mem).1
  obtain ⟨last, hlast⟩ := Index.exists_block? (hg.mem_scopeAt.mp hterminal).1
  obtain ⟨-, hid⟩ := Index.mem_of_block? hlast
  obtain ⟨front, hfront⟩ := List.getLast?_eq_some_iff.mp c.getLast?_members
  refine ⟨last, ?_, hid⟩
  rw [hfront, List.filterMap_append, List.filterMap_cons_some hlast]
  simp

/-- The entries are a whole statement of these blocks, with `target` on its left side: a pipeline,
or a container from its first opening to its last closing. -/
inductive StatementOf (g : Index) (target : Option String) : List BlockId → List Entry → Prop
  | pipeline (level : Int) (source : Option Source) (stages : List Block) :
      StatementOf g target (stages.map Block.id) [.pipeline level target source stages]
  | container (level : Int) (source : Option Source) (id : BlockId) (block : Block)
      (block_eq : g.block? id = some block) (controlFlow : block.isControlFlow)
      (inner : Branch → List Entry) :
      StatementOf g target [id] ((branches g block target source).flatMap fun b =>
        .opening level id b.target b.source b.what :: inner b ++ [.closing level id])

/-- A statement has the name of its last block on its left side. -/
theorem statementOf_statement (hg : g.Consistent) (hs : OrderedScope (g.scopeAt P) order)
    {st : Statement} (hst : st ∈ (g.scopeAt P).statements order) :
    StatementOf g (st.members.getLast?.bind t.nameOf) st.members
      (statement g t zone P input level st).entries := by
  cases st with
  | chain c =>
    have hpipeline : StatementOf g (t.nameOf c.terminal)
        ((c.members.filterMap g.block?).map Block.id) _ :=
      .pipeline level (inflow g t P input c.head).1 _
    rw [map_id_stages hg hs (hs.chain_mem_iff.mp hst)] at hpipeline
    rwa [Statement.members, c.getLast?_members]
  | container id =>
    have hcf := (hs.container_mem_iff.mp hst).2
    rw [Index.scopeAt_index] at hcf
    obtain ⟨block, hblock, hflow⟩ := Index.isControlFlow_iff.mp hcf
    simp only [statement, body, Statement.lead, hblock, entries_join, List.flatMap_map]
    exact .container level _ id block hblock hflow fun b =>
      (zone ⟨id, b.zone⟩ b.input (level + 1)).entries

theorem exists_first_opening {block : Block} (hcf : block.isControlFlow)
    (zone : Place → Option Source → Int → Layout) (level : Int) {target : Option String}
    {source : Option Source} {l₁ l₂ : List Branch} {b : Branch}
    (hsplit : branches g block target source = l₁ ++ b :: l₂) :
    ∃ opening mid, opening.begins? = some block.id ∧ opening.source? = source ∧
      l₁.flatMap (fun b => (branch zone level block.id b).entries) ++
        [.opening level block.id b.target b.source b.what] = opening :: mid := by
  obtain ⟨first, rest, hcons, -, hsource, hfirst, -⟩ := branches_eq_cons hcf target source
  have hbegins : (Entry.opening level block.id first.target first.source first.what).begins? =
      some block.id := by simp [Entry.begins?, hfirst]
  rw [hcons] at hsplit
  cases l₁ with
  | nil =>
    obtain ⟨rfl, -⟩ := List.cons.inj hsplit
    exact ⟨_, [], hbegins, hsource, rfl⟩
  | cons a l₁ =>
    obtain ⟨rfl, -⟩ := List.cons.inj hsplit
    exact ⟨_, _, hbegins, hsource, by
      rw [List.flatMap_cons, branch, List.cons_append, List.cons_append, List.cons_append]⟩

/-- An entry of a container that begins a statement is the first opening of the container, or
stands in one of its zones, behind that opening. -/
theorem split_container {block : Block} (hcf : block.isControlFlow) {target : Option String}
    {source : Option Source} {front back : List Entry} {e : Entry} {n : BlockId}
    (hsplit : (branches g block target source).flatMap
      (fun b => (branch zone level block.id b).entries) = front ++ e :: back)
    (hn : e.begins? = some n) :
    (front = [] ∧ n = block.id ∧ e.source? = source) ∨
      ∃ b ∈ branches g block target source, ∃ opening mid inner tail,
        (zone ⟨block.id, b.zone⟩ b.input (level + 1)).entries = inner ++ e :: tail ∧
        opening.begins? = some block.id ∧ opening.source? = source ∧
        front = opening :: mid ++ inner := by
  obtain ⟨l₁, b, l₂, inner, tail, hbs, hbranch, hfront, -⟩ := flatMap_split hsplit
  cases inner with
  | nil =>
    -- the entry is an opening, and only the first one begins a statement
    left
    obtain ⟨rfl, -⟩ := List.cons.inj hbranch
    obtain ⟨first, rest, hcons, -, hsource, -, hrest⟩ := branches_eq_cons (g := g) hcf target source
    have hfirst : b.what.isFirst := by
      by_contra hnot
      simp [Entry.begins?, hnot] at hn
    have hid : block.id = n := by simpa [Entry.begins?, hfirst] using hn
    rw [hcons] at hbs
    cases l₁ with
    | nil =>
      obtain ⟨rfl, -⟩ := List.cons.inj hbs
      exact ⟨hfront, hid.symm, hsource⟩
    | cons a l₁ =>
      obtain ⟨-, rfl⟩ := List.cons.inj hbs
      rw [hrest b (by simp)] at hfirst
      cases hfirst
  | cons opening inner =>
    right
    obtain ⟨rfl, hinner⟩ := List.cons.inj hbranch
    have hclosing : e ∉ [Entry.closing level block.id] := by
      intro hmem
      obtain rfl := List.mem_singleton.mp hmem
      cases hn
    obtain ⟨tail, hzone⟩ := append_split_left hinner hclosing
    obtain ⟨first, mid, hbegins, hsource, hmid⟩ := exists_first_opening hcf zone level hbs
    refine ⟨b, by rw [hbs]; simp, first, mid, inner, tail, hzone, hbegins, hsource, ?_⟩
    rw [hfront, ← hmid]
    simp

/-- **An entry that begins a statement stands at the head of a statement of the scope, or inside a
zone of a container of the scope.** -/
theorem entryAt (hg : g.Consistent) (hs : OrderedScope (g.scopeAt P) order)
    {before after : List Entry} {e : Entry} {n : BlockId}
    (hsplit : (scope g t zone P order input level separate).entries = before ++ e :: after)
    (hn : e.begins? = some n) :
    EntryAt g t zone P order input level separate before e n := by
  have hblank : e ∉ if separate then [Entry.blank] else [] := by
    intro hmem
    cases separate with
    | false => simp at hmem
    | true =>
      obtain rfl : e = .blank := by simpa using hmem
      cases hn
  rw [entries_scope, statementEntries] at hsplit
  obtain ⟨l₁, st, l₂, front, back, hst, hpart, hbefore, -⟩ := flatMap_split hsplit
  rw [entries_spaced] at hpart
  obtain ⟨back, hbody⟩ := append_split_left hpart hblank
  have hmem : st ∈ (g.scopeAt P).statements order := by rw [hst]; simp
  cases st with
  | chain c =>
    have hc := hs.chain_mem_iff.mp hmem
    have hsingle : [Entry.pipeline level (t.nameOf c.terminal) (inflow g t P input c.head).1
        (c.members.filterMap g.block?)] = front ++ e :: back := hbody
    obtain ⟨rfl, rfl⟩ : front = [] ∧ e = _ := by
      cases front with
      | nil => exact ⟨rfl, (List.cons.inj hsingle).1.symm⟩
      | cons a front => simp at hsingle
    rw [begins?_pipeline hg hs hc, Option.some.injEq] at hn
    subst hn
    exact .lead l₁ _ l₂ hst rfl (by rw [hbefore, List.append_nil]; rfl) rfl
  | container id =>
    obtain ⟨hid, hcf⟩ := hs.container_mem_iff.mp hmem
    rw [Index.scopeAt_index] at hcf
    obtain ⟨block, hblock, hflow⟩ := Index.isControlFlow_iff.mp hcf
    obtain ⟨-, rfl⟩ := Index.mem_of_block? hblock
    simp only [statement, body, Statement.lead, hblock, entries_join, List.flatMap_map] at hbody
    rcases split_container hflow hbody hn with ⟨rfl, rfl, hsource⟩ | ⟨b, hb, opening, mid, inner,
      tail, hzone, hbegins, hsource, rfl⟩
    · exact .lead l₁ _ l₂ hst rfl (by rw [hbefore, List.append_nil]; rfl) hsource
    · have hplace : (⟨block.id, b.zone⟩ : Place) ∈ g.zonesOf P order := by
        refine (Index.mem_zonesOf hs).mpr ⟨hs.perm.subset hid, hcf, block, hblock, ?_⟩
        rw [← Index.map_zone_branches block (t.nameOf block.id) (inflow g t P input block.id).1]
        exact List.mem_map_of_mem hb
      refine .inner l₁ ⟨block.id, b.zone⟩ l₂ hst hplace b.input opening mid inner tail hzone hbegins
        hsource ?_ (by rw [hbefore, List.append_assoc]; rfl)
      rw [hsource]
      exact input_of_mem_branches hb

/-! ### Splitting the entries of a script -/

theorem split_core {pre core post before after : List Entry} {e : Entry} {n : BlockId}
    (h : pre ++ core ++ post = before ++ e :: after) (hpre : ∀ x ∈ pre, x.begins? = none)
    (hpost : ∀ x ∈ post, x.begins? = none) (hn : e.begins? = some n) :
    ∃ front back, core = front ++ e :: back ∧ before = pre ++ front := by
  have hout : ∀ l : List Entry, (∀ x ∈ l, x.begins? = none) → e ∉ l := by
    intro l hl hmem
    rw [hl e hmem] at hn
    cases hn
  obtain ⟨back, hleft⟩ := append_split_left h (hout post hpost)
  obtain ⟨front, hbefore, hcore⟩ := append_split_right hleft (hout pre hpre)
  exact ⟨front, back, hcore, hbefore⟩

/-- A definition is the body of the function between entries that begin no statement, and has
nothing more to say.  Nothing named is piped into the body. -/
theorem definition_spec {id : BlockId} (hcall : g.isCallable id) :
    ∃ pre post input level, g.HasInput t (some ⟨id, .body⟩) input ∧
      (∀ p name, input ≠ some (.variable p name)) ∧ (∀ x ∈ pre ++ post, x.begins? = none) ∧
      (definition g t id).entries =
        pre ++ (Layout.zone g t g.blocks.length ⟨id, .body⟩ input level).entries ++ post ∧
      (definition g t id).findings =
        (Layout.zone g t g.blocks.length ⟨id, .body⟩ input level).findings := by
  obtain ⟨block, hblock, hfun⟩ := Index.isCallable_iff.mp hcall
  obtain ⟨name, inputParam, body, hc⟩ := Block.exists_function_of_isCallable hfun
  have hinput := Index.HasInput.body (t := t) id block hblock name inputParam body hc
  let opening : Entry := .opening 0 id none none (.function (Container.resolveFunctionName name))
  simp only [definition, functionBody, hblock, hc, Option.bind_some]
  by_cases hblank : Text.isBlankText inputParam
  · rw [Source.ofParameter, if_pos hblank] at hinput
    refine ⟨[opening], [.closing 0 id], none, 1, hinput, by simp, ?_, ?_, ?_⟩
    · simp [opening, Entry.begins?, Opening.isFirst]
    · simp [hblank, opening]
    · simp [hblank]
  · rw [Source.ofParameter, if_neg hblank] at hinput
    let parameter := Naming.identifier (Text.trim inputParam)
    refine ⟨[opening, .parameters 1 parameter, .opening 1 id none none .process],
      [.closing 1 id, .closing 0 id], some (.parameter parameter), 2, hinput, by simp, ?_, ?_, ?_⟩
    · simp [opening, Entry.begins?, Opening.isFirst]
    · simp [hblank, opening, parameter]
    · simp [hblank, parameter]

/-- The place of an entry of a script that begins a statement: in the body of a function, or in the
top level. -/
inductive ScriptAt (g : Index) (t : Table) (functions main : List BlockId) (before : List Entry)
    (e : Entry) : Prop
  | body (id : BlockId) (mem : id ∈ functions) (input : Option Source) (level : Int)
      (input_ne : ∀ p name, input ≠ some (.variable p name)) (pre front back : List Entry)
      (zone_eq : (Layout.zone g t g.blocks.length ⟨id, .body⟩ input level).entries =
        front ++ e :: back)
      (before_eq : before = pre ++ front)
  | top (ne : main ≠ []) (pre front back : List Entry)
      (scope_eq : (scope g t (Layout.zone g t g.blocks.length) none main none 0 true).entries =
        front ++ e :: back)
      (before_eq : before = pre ++ front)

theorem split_part {banner : String} {blocks : List BlockId} {entries before after : List Entry}
    {e : Entry} {n : BlockId} (h : Plan.part banner blocks entries = before ++ e :: after)
    (hn : e.begins? = some n) :
    blocks ≠ [] ∧ ∃ front back, entries = front ++ e :: back ∧
      before = [.comment banner, .blank] ++ front := by
  cases blocks with
  | nil => simp [Plan.part] at h
  | cons id blocks =>
    refine ⟨by simp, @split_core [.comment banner, .blank] entries [] before after e n ?_ ?_ ?_ hn⟩
    · simpa [Plan.part] using h
    · simp [Entry.begins?]
    · simp

theorem scriptAt {functions main : List BlockId} (h : g.Ordering functions main)
    {before after : List Entry} {e : Entry} {n : BlockId}
    (hsplit : (script g t functions main).entries = before ++ e :: after)
    (hn : e.begins? = some n) : ScriptAt g t functions main before e := by
  rw [script] at hsplit
  rcases append_split hsplit with ⟨back, hpart⟩ | ⟨front, rfl, hpart⟩
  · obtain ⟨-, front, back, hdefs, rfl⟩ := split_part hpart hn
    rw [definitions, entries_join, List.flatMap_map] at hdefs
    obtain ⟨l₁, id, l₂, front', back', hfunctions, hdef, rfl, -⟩ := flatMap_split hdefs
    have hid : id ∈ functions := by rw [hfunctions]; simp
    obtain ⟨pre, post, input, level, -, hinput, hframe, heq, -⟩ :=
      @definition_spec g t id ((h.mem_functions id).mp hid)
    rw [entries_spaced, heq, List.append_assoc] at hdef
    have hpost : ∀ x ∈ post ++ [Entry.blank], x.begins? = none := by
      intro x hx
      rcases List.mem_append.mp hx with hx | hx
      · exact hframe x (by simp [hx])
      · rw [List.mem_singleton.mp hx]
        rfl
    obtain ⟨front, back, hzone, rfl⟩ :=
      split_core hdef (fun x hx => hframe x (by simp [hx])) hpost hn
    refine .body id hid input level hinput ([.comment Plan.functionsBanner, .blank] ++
      l₁.flatMap (fun id => (spaced true (definition g t id)).entries) ++ pre) front back hzone ?_
    simp only [List.append_assoc]
  · obtain ⟨hmain, front', back, hexec, rfl⟩ := split_part hpart hn
    have hne : main.isEmpty = false := by simpa using hmain
    rw [execution, hne] at hexec
    exact .top hmain _ front' back hexec (List.append_assoc ..).symm

end Layout

/-! ### What is piped into the statements -/

/-- The block leads a statement of its scope: it is a control-flow container or the head of a
chain. -/
def Index.Leads (g : Index) (n : BlockId) : Prop :=
  ∃ order, (g.scopeAt (g.parent? n)).sorted = .ok order ∧
    ∃ st ∈ (g.scopeAt (g.parent? n)).statements order, st.lead = n

namespace Layout

variable {g : Index} {t : Table}

theorem lead_mem_scope {P : Option Place} {order : List BlockId}
    (hs : OrderedScope (g.scopeAt P) order) {st : Statement}
    (hst : st ∈ (g.scopeAt P).statements order) : st.lead ∈ (g.scopeAt P).ids :=
  (hs.perm_members.trans hs.perm).subset (List.mem_flatMap.mpr ⟨st, hst, st.lead_mem⟩)

/-- The entries that begin statements do so for leads of these scopes, and into each is piped what
`inflow` says for some input of its scope. -/
def BegunIn (g : Index) (t : Table) (scopes : List (Option Place)) (entries : List Entry) : Prop :=
  ∀ e ∈ entries, ∀ n, e.begins? = some n → g.parent? n ∈ scopes ∧ g.Leads n ∧
    ∃ input, e.source? = (inflow g t (g.parent? n) input n).1

theorem begunIn_scope (hg : g.Consistent) {P : Option Place} {order : List BlockId}
    (hsorted : (g.scopeAt P).sorted = .ok order)
    {zone : Place → Option Source → Int → Layout} {inner : Place → List (Option Place)}
    (hzone : ∀ place input level, BegunIn g t (inner place) (zone place input level).entries)
    (input : Option Source) (level : Int) (separate : Bool) :
    BegunIn g t (P :: (g.zonesOf P order).flatMap inner)
      (scope g t zone P order input level separate).entries := by
  intro e he n hn
  obtain ⟨before, after, hsplit⟩ := List.append_of_mem he
  have hs := hg.orderedScope hsorted
  cases entryAt hg hs hsplit hn with
  | lead l₁ st l₂ split lead_eq before_eq source_eq =>
    have hst : st ∈ (g.scopeAt P).statements order := by rw [split]; simp
    obtain ⟨-, rfl⟩ := hg.mem_scopeAt.mp (lead_eq ▸ lead_mem_scope hs hst)
    exact ⟨List.mem_cons_self, ⟨order, hsorted, st, hst, lead_eq⟩, input, source_eq⟩
  | inner l₁ place l₂ split place_mem inside opening mid front back zone_eq =>
    obtain ⟨hmem, hlead, hsource⟩ := hzone place inside (level + 1) e (by rw [zone_eq]; simp) n hn
    exact ⟨List.mem_cons_of_mem _ (List.mem_flatMap.mpr ⟨place, place_mem, hmem⟩), hlead, hsource⟩

theorem zone_cases (g : Index) (t : Table) (depth : Nat) (place : Place) (input : Option Source)
    (level : Int) :
    ((∀ e ∈ (zone g t depth place input level).entries,
        e = .emptyZone level place ∨ e = .brokenZone level place) ∧
      (∀ f ∈ (zone g t depth place input level).findings, ∃ cycle, f = .zoneCycle place cycle) ∧
      g.scopesIn depth place = []) ∨
      ∃ inner order, depth = inner + 1 ∧ (g.scopeAt (some place)).sorted = .ok order ∧
        zone g t depth place input level =
          scope g t (zone g t inner) (some place) order input level false ∧
        g.scopesIn depth place =
          some place :: (g.zonesOf (some place) order).flatMap (g.scopesIn inner) := by
  cases depth with
  | zero => exact Or.inl (by simp [zone, Index.scopesIn])
  | succ depth =>
    rw [zone, Index.scopesIn]
    by_cases hempty : (g.zoneScope place).ids.isEmpty
    · exact Or.inl (by simp [hempty])
    · simp only [hempty, Bool.false_eq_true, if_false]
      cases hsorted : (g.zoneScope place).sorted with
      | error cycle => exact Or.inl (by simp)
      | ok order => exact Or.inr ⟨depth, order, rfl, hsorted, rfl, rfl⟩

theorem begunIn_zone (hg : g.Consistent) (depth : Nat) (place : Place) (input : Option Source)
    (level : Int) :
    BegunIn g t (g.scopesIn depth place) (zone g t depth place input level).entries := by
  induction depth using Nat.strong_induction_on generalizing place input level with
  | _ depth ih =>
    rcases zone_cases g t depth place input level with
      ⟨hnone, -⟩ | ⟨inner, order, rfl, hsorted, heq, hin⟩
    · intro e he n hn
      rcases hnone e he with rfl | rfl <;> cases hn
    · rw [heq, hin]
      exact begunIn_scope hg hsorted (ih inner (by omega)) input level false

/-- **The statements of a script**: each is that of a lead in a scope that is written, and what is
piped into it is what `inflow` says. -/
theorem begunIn_script {functions main : List BlockId} (h : g.Ordering functions main) :
    BegunIn g t (g.written functions main) (script g t functions main).entries := by
  have hg := h.consistent
  intro e he n hn
  obtain ⟨before, after, hsplit⟩ := List.append_of_mem he
  cases scriptAt h hsplit hn with
  | body id mem input level input_ne pre front back zone_eq =>
    obtain ⟨hmem, hrest⟩ := begunIn_zone hg _ _ _ _ e (by rw [zone_eq]; simp) n hn
    exact ⟨h.mem_written.mpr (Or.inl ⟨id, (h.mem_functions id).mp mem, hmem⟩), hrest⟩
  | top ne pre front back scope_eq =>
    obtain ⟨hmem, hrest⟩ := begunIn_scope hg h.top (begunIn_zone hg _) none 0 true e
      (by rw [scope_eq]; simp) n hn
    exact ⟨h.mem_written.mpr (Or.inr ⟨ne, by simpa using hmem⟩), hrest⟩

end Layout

end BlockScript
