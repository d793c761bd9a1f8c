import BlockScript.Proofs.PipelineText
import BlockScript.Proofs.ScriptParts

/-!
# Every block is rendered exactly once

A pipeline renders its stages, the opening of a container's first zone renders the container.  The
statements of a scope render its blocks, each once, and the scopes that are written are different
scopes; so what a script renders is a permutation of the blocks of the scopes that are written
(`Layout.perm_rendered_zone`, `Layout.perm_rendered_scope`).

The other entries of a script: each function is defined once, under its own name, before the banner
of the execution part.
-/

namespace BlockScript

open Emit
open scoped List

namespace Entry

/-- The blocks that an entry renders: the stages of a pipeline, or a container at its first
opening. -/
def rendered : Entry → List BlockId
  | .pipeline _ _ _ stages => stages.map Block.id
  | .opening _ owner _ _ what => if what.isFirst then [owner] else []
  | _ => []

/-- The function whose definition the entry begins, with the name it is defined under. -/
def defines? : Entry → Option (BlockId × String)
  | .opening _ owner _ _ (.function name) => some (owner, name)
  | _ => none

end Entry

theorem Source.Provided.notBlank {t : Table} {source : Option Source} (h : Provided t source) :
    NotBlank source := by
  cases h <;> exact notBlank_of_ne_given (by simp)

namespace Index

variable {g : Index}

/-- The blocks of these scopes. -/
def blocksOf (g : Index) (scopes : List (Option Place)) : List BlockId :=
  scopes.flatMap fun Q => (g.scopeAt Q).ids

theorem Consistent.mem_blocksOf (h : g.Consistent) {scopes : List (Option Place)} {id : BlockId} :
    id ∈ g.blocksOf scopes ↔ id ∈ g.ids ∧ g.parent? id ∈ scopes := by
  simp only [blocksOf, List.mem_flatMap, h.mem_scopeAt]
  constructor
  · rintro ⟨Q, hQ, hid, rfl⟩
    exact ⟨hid, hQ⟩
  · rintro ⟨hid, hQ⟩
    exact ⟨_, hQ, hid, rfl⟩

/-- Different scopes have no block in common. -/
theorem Consistent.nodup_blocksOf (h : g.Consistent) {scopes : List (Option Place)}
    (hscopes : scopes.Nodup) : (g.blocksOf scopes).Nodup := by
  rw [blocksOf, List.nodup_flatMap]
  refine ⟨fun Q _ => h.nodup_scopeAt Q, hscopes.imp ?_⟩
  intro P Q hne id hP hQ
  exact hne ((h.mem_scopeAt.mp hP).2.symm.trans (h.mem_scopeAt.mp hQ).2)

end Index

namespace Layout

variable {g : Index} {t : Table} {zone : Place → Option Source → Int → Layout}
  {P : Option Place} {order : List BlockId}

/-! ### What the statements of a scope render -/

theorem rendered_branch (level : Int) (owner : BlockId) (b : Branch) :
    (branch zone level owner b).entries.flatMap Entry.rendered =
      (if b.what.isFirst then [owner] else []) ++
        (zone ⟨owner, b.zone⟩ b.input (level + 1)).entries.flatMap Entry.rendered := by
  simp [branch, Entry.rendered]

/-- A statement renders its members and what is rendered in its zones. -/
theorem perm_rendered_body (hg : g.Consistent) (hs : OrderedScope (g.scopeAt P) order)
    {st : Statement} (hst : st ∈ (g.scopeAt P).statements order) {inner : Place → List BlockId}
    (hzone : ∀ place input level,
      ((zone place input level).entries.flatMap Entry.rendered).Perm (inner place))
    (level : Int) (source : Option Source) :
    ((body g t zone level source st).entries.flatMap Entry.rendered).Perm
      (st.members ++ (g.statementZones st).flatMap inner) := by
  cases st with
  | chain c =>
    simp [body, Entry.rendered, Statement.members, Index.statementZones,
      map_id_stages hg hs (hs.chain_mem_iff.mp hst)]
  | container id =>
    have hcf := (hs.container_mem_iff.mp hst).2
    rw [Index.scopeAt_index] at hcf
    obtain ⟨block, hblock, hflow⟩ := Index.isControlFlow_iff.mp hcf
    obtain ⟨first, rest, hcons, -, -, hfirst, hrest⟩ :=
      branches_eq_cons (g := g) hflow (t.nameOf id) source
    have hzones : g.statementZones (.container id) = (first :: rest).map (⟨id, ·.zone⟩) := by
      simp only [Index.statementZones, hblock, ← hcons, List.map_map,
        ← Index.map_zone_branches block (t.nameOf id) source]
      rfl
    simp only [body, hblock, hcons, entries_join, List.flatMap_map, hzones, List.flatMap_cons,
      List.flatMap_append, List.flatMap_assoc, rendered_branch, hfirst, if_true, Statement.members,
      List.append_assoc]
    refine ((hzone _ _ _).append (List.Perm.flatMap_left rest fun b hb => ?_)).append_left [id]
    simpa [hrest b hb] using hzone _ _ _

/-- A scope renders its blocks and what is rendered in its zones. -/
theorem perm_rendered_scope (hg : g.Consistent) (hs : OrderedScope (g.scopeAt P) order)
    {inner : Place → List (Option Place)}
    (hzone : ∀ place input level,
      ((zone place input level).entries.flatMap Entry.rendered).Perm (g.blocksOf (inner place)))
    (input : Option Source) (level : Int) (separate : Bool) :
    ((scope g t zone P order input level separate).entries.flatMap Entry.rendered).Perm
      (g.blocksOf (P :: (g.zonesOf P order).flatMap inner)) := by
  have hspaced : ∀ part : Layout, (spaced separate part).entries.flatMap Entry.rendered =
      part.entries.flatMap Entry.rendered := by
    intro part
    cases separate <;> simp [entries_spaced, Entry.rendered]
  calc (scope g t zone P order input level separate).entries.flatMap Entry.rendered
      = ((g.scopeAt P).statements order).flatMap fun st =>
          (body g t zone level (inflow g t P input st.lead).1 st).entries.flatMap
            Entry.rendered := by
        simp only [entries_scope, statementEntries, List.flatMap_assoc, hspaced]
        rfl
    _ ~ ((g.scopeAt P).statements order).flatMap fun st =>
          st.members ++ (g.statementZones st).flatMap fun place => g.blocksOf (inner place) :=
        List.Perm.flatMap_left _ fun st hst => perm_rendered_body hg hs hst hzone level _
    _ ~ ((g.scopeAt P).statements order).flatMap Statement.members ++
          (g.zonesOf P order).flatMap fun place => g.blocksOf (inner place) := by
        rw [Index.zonesOf, List.flatMap_assoc]
        exact (List.flatMap_append_perm _ _ _).symm
    _ ~ g.blocksOf (P :: (g.zonesOf P order).flatMap inner) := by
        rw [Index.blocksOf, List.flatMap_cons, List.flatMap_assoc]
        exact (hs.perm_members.trans hs.perm).append_right _

/-- **A zone renders the blocks of the scopes that are written below it.** -/
theorem perm_rendered_zone (hg : g.Consistent) (depth : Nat) (place : Place)
    (input : Option Source) (level : Int) :
    ((Layout.zone g t depth place input level).entries.flatMap Entry.rendered).Perm
      (g.blocksOf (g.scopesIn depth place)) := by
  induction depth using Nat.strong_induction_on generalizing place input level with
  | _ depth ih =>
    rcases zone_cases g t depth place input level with
      ⟨hnone, -, hin⟩ | ⟨inner, order, rfl, hsorted, heq, hin⟩
    · have hnil :
          (Layout.zone g t depth place input level).entries.flatMap Entry.rendered = [] := by
        refine List.flatMap_eq_nil_iff.mpr fun e he => ?_
        rcases hnone e he with rfl | rfl <;> rfl
      rw [hnil, hin]
      exact .refl _
    · rw [heq, hin]
      exact perm_rendered_scope hg (hg.orderedScope hsorted) (ih inner (by omega)) input level false

/-! ### What else stands in a script -/

theorem PartEntry.notBlank {whole : Bool} {level : Int} {target : Option String}
    {source : Option Source} {stages : List Block}
    (h : PartEntry g t whole (.pipeline level target source stages)) :
    Source.NotBlank source := by
  cases h with
  | filler _ filler => cases filler
  | pipeline _ _ _ _ _ _ _ provided => exact provided.notBlank

/-- There is no comment in a body. -/
theorem PartEntry.ne_comment {e : Entry} (h : PartEntry g t false e) (text : String) :
    e ≠ .comment text := by
  rintro rfl
  cases h with
  | filler _ filler => cases filler

theorem what_ne_function_of_mem_branches {block : Block} {target : Option String}
    {source : Option Source} {b : Branch} (hb : b ∈ branches g block target source)
    (name : String) : b.what ≠ .function name := by
  revert b
  cases branchList g block <;> rename_i hbranches <;> simp [hbranches]

/-- No function is defined in a body. -/
theorem PartEntry.defines?_eq {e : Entry} (h : PartEntry g t false e) : e.defines? = none := by
  cases h with
  | filler e filler => cases filler <;> rfl
  | opening level owner target source what opens =>
    cases opens with
    | branch _ block _ source _ b mem =>
      cases hwhat : b.what with
      | function name => exact absurd hwhat (what_ne_function_of_mem_branches mem name)
      | _ => rfl
    | process => rfl
  | _ => rfl

/-! ### Definitions -/

theorem perm_rendered_functionBody (hg : g.Consistent) (id : BlockId) (inputParam : String) :
    ((functionBody g t id inputParam).entries.flatMap Entry.rendered).Perm
      (g.blocksOf (g.scopesIn g.blocks.length ⟨id, .body⟩)) := by
  rw [functionBody]
  split
  · exact perm_rendered_zone hg _ _ _ _
  · simpa [Entry.rendered, Opening.isFirst] using perm_rendered_zone hg _ _ _ _

/-- The definition of a function: its body, with the opening and the closing around it. -/
theorem entries_definition_eq {id : BlockId} {block : Block} (hblock : g.block? id = some block)
    {name : String} (hname : block.functionName? = some name) :
    ∃ inputParam, (definition g t id).entries = .opening 0 id none none (.function name) ::
      (functionBody g t id inputParam).entries ++ [.closing 0 id] := by
  have hcall : block.isCallable := by simp [Block.isCallable, hname]
  obtain ⟨given, inputParam, body, hc⟩ := Block.exists_function_of_isCallable hcall
  obtain rfl : Container.resolveFunctionName given = name := by
    simpa [Block.functionName?, hc] using hname
  exact ⟨inputParam, by simp [definition, hblock, hc]⟩

end Layout

/-- A function with the name it is called by. -/
def Block.signature? (b : Block) : Option (BlockId × String) := b.functionName?.map (b.id, ·)

theorem Block.signature?_of_not_isCallable {b : Block} (h : b.isCallable = false) :
    b.signature? = none := by
  simpa [isCallable, signature?] using h

namespace Index.Ordering

variable {g : Index} {t : Table} {functions main : List BlockId}

theorem perm_callables (h : g.Ordering functions main) : functions.Perm g.callables := by
  refine (List.perm_ext_iff_of_nodup h.functions_nodup ?_).mpr fun id => ?_
  · exact h.consistent.ids_nodup.sublist (List.filter_sublist.map _)
  · rw [h.mem_functions, mem_callables h.consistent]

/-- The function and its definition. -/
theorem exists_definition (h : g.Ordering functions main) {id : BlockId} (hid : id ∈ functions) :
    ∃ block name inputParam, g.block? id = some block ∧ block.functionName? = some name ∧
      (Layout.definition g t id).entries = .opening 0 id none none (.function name) ::
        (Layout.functionBody g t id inputParam).entries ++ [.closing 0 id] := by
  obtain ⟨block, hblock, hcall⟩ := isCallable_iff.mp ((h.mem_functions id).mp hid)
  obtain ⟨name, hname⟩ := Option.isSome_iff_exists.mp hcall
  obtain ⟨inputParam, heq⟩ := @Layout.entries_definition_eq g t id block hblock name hname
  exact ⟨block, name, inputParam, hblock, hname, heq⟩

/-- A definition renders the blocks of the scopes that are written in the body. -/
theorem perm_rendered_definition (h : g.Ordering functions main) {id : BlockId}
    (hid : id ∈ functions) : ((Layout.definition g t id).entries.flatMap Entry.rendered).Perm
      (g.blocksOf (g.scopesIn g.blocks.length ⟨id, .body⟩)) := by
  obtain ⟨block, name, inputParam, -, -, heq⟩ := @exists_definition g t functions main h id hid
  simpa [heq, Entry.rendered, Opening.isFirst] using
    Layout.perm_rendered_functionBody h.consistent id inputParam

theorem perm_rendered_definitions (h : g.Ordering functions main) :
    ((Layout.definitions g t functions).entries.flatMap Entry.rendered).Perm
      (g.blocksOf (functions.flatMap fun id => g.scopesIn g.blocks.length ⟨id, .body⟩)) := by
  simp only [Layout.definitions, Layout.entries_join, List.flatMap_map, List.flatMap_assoc,
    blocksOf]
  refine List.Perm.flatMap_left _ fun id hid => ?_
  simpa [Layout.entries_spaced, Entry.rendered, blocksOf] using h.perm_rendered_definition hid

theorem perm_rendered_execution (h : g.Ordering functions main) :
    ((Layout.execution g t main).entries.flatMap Entry.rendered).Perm
      (g.blocksOf (if main.isEmpty then []
        else none :: (g.zonesOf none main).flatMap (g.scopesIn g.blocks.length))) := by
  rw [Layout.execution]
  split
  · exact .refl _
  · exact Layout.perm_rendered_scope h.consistent h.orderedTop
      (Layout.perm_rendered_zone h.consistent _) none 0 true

/-- **The functions are defined**, each once and under its own name. -/
theorem perm_defines_definitions (h : g.Ordering functions main) :
    ((Layout.definitions g t functions).entries.filterMap Entry.defines?).Perm
      (g.blocks.filterMap Block.signature?) := by
  have hdefinition : ∀ id ∈ functions,
      (Layout.spaced true (Layout.definition g t id)).entries.filterMap Entry.defines? =
        ((g.block? id).bind Block.signature?).toList := by
    intro id hid
    obtain ⟨block, name, inputParam, hblock, hname, heq⟩ :=
      @exists_definition g t functions main h id hid
    obtain ⟨-, rfl⟩ := mem_of_block? hblock
    have hbody : (Layout.functionBody g t block.id inputParam).entries.filterMap Entry.defines? =
        [] := by
      refine List.filterMap_eq_nil_iff.mpr fun e he => ?_
      exact ((Layout.composed_functionBody h.consistent _ _).partEntry e he).defines?_eq
    simp [Layout.entries_spaced, heq, hbody, hblock, hname, Entry.defines?, Block.signature?]
  calc (Layout.definitions g t functions).entries.filterMap Entry.defines?
      = functions.flatMap fun id => ((g.block? id).bind Block.signature?).toList := by
        simp only [Layout.definitions, Layout.entries_join, List.flatMap_map,
          List.filterMap_flatMap]
        exact List.flatMap_congr hdefinition
    _ ~ g.callables.flatMap fun id => ((g.block? id).bind Block.signature?).toList :=
        h.perm_callables.flatMap_right _
    _ = (g.blocks.filter Block.isCallable).flatMap fun b => b.signature?.toList := by
        rw [callables, List.flatMap_map]
        refine List.flatMap_congr fun b hb => ?_
        rw [h.consistent.block?_of_mem (List.mem_of_mem_filter hb), Option.bind_some]
    _ = g.blocks.filterMap Block.signature? := by
        rw [← List.filterMap_eq_flatMap_toList, List.filterMap_filter]
        refine List.filterMap_congr fun b _ => ?_
        split
        · rfl
        · rename_i hnot
          exact (Block.signature?_of_not_isCallable (by simpa using hnot)).symm

/-- What is rendered in the definitions lies in a function. -/
theorem none_notMem_of_rendered (h : g.Ordering functions main) {id : BlockId}
    (hid : id ∈ (Layout.definitions g t functions).entries.flatMap Entry.rendered) :
    none ∉ g.scopesFrom (g.parent? id) := by
  have hg := h.consistent
  obtain ⟨-, hscope⟩ := hg.mem_blocksOf.mp (h.perm_rendered_definitions.subset hid)
  obtain ⟨f, hf, hscope⟩ := List.mem_flatMap.mp hscope
  intro hnone
  have hroot := hg.root_unique (hg.sorts_of_mem_scopesIn hscope).1 hnone
    (scopesFrom_body ((h.mem_functions f).mp hf)) scopesFrom_none
  cases hroot

/-- What is rendered in the execution part lies in no function. -/
theorem none_mem_of_rendered (h : g.Ordering functions main) {id : BlockId}
    (hid : id ∈ (Layout.execution g t main).entries.flatMap Entry.rendered) :
    none ∈ g.scopesFrom (g.parent? id) := by
  obtain ⟨-, hscope⟩ := h.consistent.mem_blocksOf.mp (h.perm_rendered_execution.subset hid)
  split at hscope
  · simp at hscope
  · exact (h.none_mem_scopesFrom (by simpa using hscope)).1

end Index.Ordering

/-! ### The parts of a script -/

theorem Plan.flatMap_rendered_part (banner : String) {blocks : List BlockId} {entries : List Entry}
    (h : blocks = [] → entries = []) :
    (Plan.part banner blocks entries).flatMap Entry.rendered = entries.flatMap Entry.rendered := by
  cases blocks with
  | nil => simp [Plan.part, h rfl]
  | cons id blocks => simp [Plan.part, Entry.rendered]

theorem Plan.eq_of_mem_part {banner : String} {blocks : List BlockId} {entries : List Entry}
    {e : Entry} (he : e ∈ Plan.part banner blocks entries) :
    e = .comment banner ∨ e = .blank ∨ e ∈ entries := by
  rw [Plan.part] at he
  split at he
  · simp at he
  · simpa using he

theorem Plan.filterMap_defines?_part (banner : String) {blocks : List BlockId}
    {entries : List Entry} (h : blocks = [] → entries = []) :
    (Plan.part banner blocks entries).filterMap Entry.defines? =
      entries.filterMap Entry.defines? := by
  cases blocks with
  | nil => simp [Plan.part, h rfl]
  | cons id blocks => rfl

namespace Layout

variable {g : Index} {t : Table} {functions main : List BlockId}

/-- An entry of the definitions stands in a body, or it begins one of them. -/
theorem partEntry_definitions (h : g.Ordering functions main) {e : Entry}
    (he : e ∈ (definitions g t functions).entries) :
    PartEntry g t false e ∨ ∃ id name, e = .opening 0 id none none (.function name) := by
  simp only [definitions, entries_join, List.flatMap_map, List.mem_flatMap] at he
  obtain ⟨id, hid, he⟩ := he
  obtain ⟨block, name, inputParam, -, -, heq⟩ := @h.exists_definition _ t _ _ id hid
  simp only [entries_spaced, heq, if_true, List.cons_append, List.mem_cons, List.mem_append,
    List.not_mem_nil, or_false] at he
  rcases he with rfl | (he | rfl) | rfl
  · exact Or.inr ⟨id, name, rfl⟩
  · exact Or.inl ((composed_functionBody h.consistent _ _).partEntry e he)
  · exact Or.inl (.closing 0 id)
  · exact Or.inl (.filler _ (.blank false))

end Layout

/-- The definition of a function stands in one piece. -/
theorem Layout.split_part_definitions (g : Index) (t : Table) {functions : List BlockId}
    {id : BlockId} (hid : id ∈ functions) :
    ∃ before after, Plan.part Plan.functionsBanner functions (definitions g t functions).entries =
      before ++ (definition g t id).entries ++ after := by
  obtain ⟨front, back, rfl⟩ := List.append_of_mem hid
  refine ⟨.comment Plan.functionsBanner :: .blank :: (definitions g t front).entries,
    .blank :: (definitions g t back).entries, ?_⟩
  simp [Plan.part, definitions, entries_spaced]

/-- A script in two parts: the definitions of the functions, and what is run under its banner.  The
definition of a function stands in one piece, with the blocks of its body in it. -/
structure Sections (s : Snapshot) (defined executed : List Entry) : Prop where
  starts : executed = [] ∨ executed.head? = some (.comment Plan.executionBanner)
  starts_once : .comment Plan.executionBanner ∉ defined ++ executed.tail
  defined_here : ∀ b ∈ s.blocks, ∀ name, b.functionName? = some name →
    ∃ before inside after, defined = before ++
        (.opening 0 b.id none none (.function name) :: inside ++ [.closing 0 b.id]) ++ after ∧
      ∀ id ∈ inside.flatMap Entry.rendered,
        some ⟨b.id, .body⟩ ∈ s.index.scopesFrom (s.index.parent? id)
  defines_none : executed.filterMap Entry.defines? = []
  in_function : ∀ id ∈ defined.flatMap Entry.rendered,
    none ∉ s.index.scopesFrom (s.index.parent? id)
  at_top : ∀ id ∈ executed.flatMap Entry.rendered,
    none ∈ s.index.scopesFrom (s.index.parent? id)

theorem sections_script {s : Snapshot} {t : Table} {functions main : List BlockId}
    (h : s.index.Ordering functions main) :
    Sections s
      (Plan.part Plan.functionsBanner functions (Layout.definitions s.index t functions).entries)
      (Plan.part Plan.executionBanner main (Layout.execution s.index t main).entries) where
  starts := by
    cases main with
    | nil => exact Or.inl rfl
    | cons id main => exact Or.inr rfl
  starts_once := by
    intro hmem
    rcases List.mem_append.mp hmem with hmem | hmem
    · rcases Plan.eq_of_mem_part hmem with heq | heq | hmem
      · exact absurd heq (by decide)
      · cases heq
      · rcases Layout.partEntry_definitions h hmem with hpart | ⟨id, name, heq⟩
        · exact hpart.ne_comment _ rfl
        · cases heq
    · cases main with
      | nil => simp [Plan.part] at hmem
      | cons id main =>
        rcases List.mem_cons.mp hmem with heq | hmem
        · cases heq
        · exact ((Layout.composed_execution h).partEntry _ hmem).ne_comment _ rfl
  defined_here := by
    intro b hb name hname
    have hg := h.consistent
    have hcall : s.index.isCallable b.id :=
      Index.isCallable_iff.mpr ⟨b, hg.block?_of_mem hb, by simp [Block.isCallable, hname]⟩
    obtain ⟨before, after, hsplit⟩ :=
      Layout.split_part_definitions s.index t ((h.mem_functions b.id).mpr hcall)
    obtain ⟨inputParam, heq⟩ :=
      @Layout.entries_definition_eq s.index t b.id b (hg.block?_of_mem hb) name hname
    refine ⟨before, (Layout.functionBody s.index t b.id inputParam).entries, after, ?_,
      fun id hid => ?_⟩
    · rw [hsplit, heq]
    · have hscope := (hg.mem_blocksOf.mp
        ((Layout.perm_rendered_functionBody hg _ _).subset hid)).2
      exact (hg.sorts_of_mem_scopesIn hscope).1
  defines_none := by
    rw [Plan.filterMap_defines?_part _ (by rintro rfl; rfl)]
    refine List.filterMap_eq_nil_iff.mpr fun e he => ?_
    exact ((Layout.composed_execution h).partEntry e he).defines?_eq
  in_function := by
    rw [Plan.flatMap_rendered_part _ (by rintro rfl; rfl)]
    exact fun id hid => h.none_notMem_of_rendered hid
  at_top := by
    rw [Plan.flatMap_rendered_part _ (by rintro rfl; rfl)]
    exact fun id hid => h.none_mem_of_rendered hid

theorem perm_rendered_script {g : Index} {t : Table} {functions main : List BlockId}
    (h : g.Ordering functions main) :
    ((Layout.script g t functions main).entries.flatMap Entry.rendered).Perm
      (g.blocksOf (g.written functions main)) := by
  rw [Layout.script, List.flatMap_append, Plan.flatMap_rendered_part _ (by rintro rfl; rfl),
    Plan.flatMap_rendered_part _ (by rintro rfl; rfl), Index.written, Index.blocksOf,
    List.flatMap_append]
  exact h.perm_rendered_definitions.append h.perm_rendered_execution

/-- **Every block is rendered exactly once**, if its scope and all scopes on the way outward, up to
the nearest function body or the top level, can be sorted; otherwise it is not rendered.  Nothing
else is.  Each function is defined once, ahead of the execution part, and each pipeline has a line
that is not blank. -/
theorem block_rendered_once {s : Snapshot} {suffixLength : Int} {es : List Entry} (hs : s.Valid)
    (h : (s.plan suffixLength).entries? = some es) :
    (∀ b ∈ s.blocks, (es.flatMap Entry.rendered).count b.id =
        if s.index.IsWritten (s.index.parent? b.id) then 1 else 0) ∧
      (∀ id ∈ es.flatMap Entry.rendered, ∃ b ∈ s.blocks, b.id = id) ∧
      (es.filterMap Entry.defines?).Perm (s.blocks.filterMap Block.signature?) ∧
      (∃ defined executed, es = defined ++ executed ∧ Sections s defined executed) ∧
      ∀ size level target source stages, .pipeline level target source stages ∈ es →
        ∃ line ∈ (Entry.pipeline level target source stages).lines size,
          Text.isBlankText line = false := by
  obtain ⟨functions, main, hnamed, rfl, -⟩ := Snapshot.plan_spec hs h
  have ho := hnamed.toOrdering
  have hg := ho.consistent
  have hperm := perm_rendered_script (t := (s.plan suffixLength).pass.table) ho
  refine ⟨fun b hb => ?_, fun id hid => ?_, ?_, ⟨_, _, rfl, sections_script ho⟩, ?_⟩
  · have hid : b.id ∈ s.index.ids := List.mem_map_of_mem hb
    have hne : (s.index.scopeAt (s.index.parent? b.id)).ids ≠ [] :=
      List.ne_nil_of_mem (hg.mem_scopeAt.mpr ⟨hid, rfl⟩)
    rw [hperm.count_eq, (hg.nodup_blocksOf ho.nodup_written).count]
    simp only [hg.mem_blocksOf, hid, true_and, ho.mem_written_iff hne]
  · obtain ⟨hid, -⟩ := hg.mem_blocksOf.mp (hperm.subset hid)
    exact List.mem_map.mp hid
  · have hsections := sections_script (t := (s.plan suffixLength).pass.table) ho
    rw [Layout.script, List.filterMap_append, hsections.defines_none, List.append_nil,
      Plan.filterMap_defines?_part _ (by rintro rfl; rfl)]
    exact ho.perm_defines_definitions
  · intro size level target source stages hmem
    have hsource := ((Layout.composed_script ho).partEntry _ hmem).notBlank
    exact Entry.exists_line_pipeline size level target hsource stages

/-- A function with a loop in it whose blocks depend on each other in a cycle.  One of them is a
function itself: it is not called, but it is defined, with its own block in it. -/
def cyclicLoop : Snapshot where
  blocks := [
    { id := "list", command := "Get-ChildItem" },
    { id := "tidy", container := some (.function "Tidy" "Items" ["sort", "retry"]) },
    { id := "sort", command := "Sort-Object" },
    { id := "retry", container := some (.forEach ["ping", "helper"]) },
    { id := "ping", command := "Test-Connection" },
    { id := "helper", container := some (.function "Helper" "" ["deep"]) },
    { id := "deep", scriptBody := "$_.Name" }]
  connections := [
    { source := "list", target := "tidy" },
    { source := "sort", target := "retry" },
    { source := "ping", target := "helper" },
    { source := "helper", target := "ping" }]

def cyclicLoopEntries : List Entry := (cyclicLoop.plan 4).entries?.getD []

theorem block_rendered_once_cyclicLoop :
    (∀ b ∈ cyclicLoop.blocks, (cyclicLoopEntries.flatMap Entry.rendered).count b.id =
        if b.id ∈ ["ping", "helper"] then 0 else 1) ∧
      (cyclicLoopEntries.filterMap Entry.defines?).Perm [("tidy", "Tidy"), ("helper", "Helper")] ∧
      (∃ defined executed, cyclicLoopEntries = defined ++ executed ∧
        Sections cyclicLoop defined executed) ∧
      ∃ level target source stages,
        .pipeline level target source stages ∈ cyclicLoopEntries ∧ stages.map Block.id = ["deep"] ∧
          ∀ size, ∃ line ∈ (Entry.pipeline level target source stages).lines size,
            Text.isBlankText line = false := by
  have hvalid : cyclicLoop.Valid := by constructor <;> decide
  have hplan : (cyclicLoop.plan 4).entries? = some cyclicLoopEntries := by decide +kernel
  obtain ⟨hcount, -, hdefines, hsections, hlines⟩ := block_rendered_once hvalid hplan
  have hwritten : ∀ b ∈ cyclicLoop.blocks,
      cyclicLoop.index.IsWritten (cyclicLoop.index.parent? b.id) ↔ b.id ∉ ["ping", "helper"] := by
    decide +kernel
  have hdeep : .pipeline 1 none none [{ id := "deep", scriptBody := "$_.Name" }] ∈
      cyclicLoopEntries := by decide +kernel
  refine ⟨fun b hb => ?_, hdefines, hsections, 1, none, none, _, hdeep, rfl,
    fun size => hlines size _ _ _ _ hdeep⟩
  rw [hcount b hb]
  simp only [hwritten b hb, ite_not]

end BlockScript
