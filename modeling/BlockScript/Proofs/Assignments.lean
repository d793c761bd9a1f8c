import BlockScript.Proofs.RenderedOnce

/-!
# Assignments

An entry of a script is the pipeline of a chain, the opening of a branch, or it renders no block and
has no target (`Layout.PartEntry`).  So what an entry assigns is what the table has for the blocks
that it renders: in a chain only the last block is named, and of the branches of a container only
the first one renders it (`Layout.PartEntry.assigns?_eq`).  Since every block is rendered once,
**the assignments of a script are the bindings of its table, each made once**
(`Index.Named.perm_assigns`).

With `Binder.Fresh` this makes the variables of a script different (`binding_names_distinct`).
-/

namespace BlockScript

open Emit
open scoped List

namespace Entry

/-- The variable on the left side of the entry. -/
def target? : Entry → Option String
  | .pipeline _ target _ _ => target
  | .opening _ _ target _ _ => target
  | _ => none

/-- The variable on the left side of the entry with the block whose result it captures: the last
stage of the pipeline, or the container. -/
def assigns? : Entry → Option Binding
  | .pipeline _ target _ stages => stages.getLast?.bind fun last => target.map (⟨last.id, ·⟩)
  | .opening _ owner target _ _ => target.map (⟨owner, ·⟩)
  | _ => none

end Entry

/-- The binding that the table has for a block. -/
def Table.binding? (t : Table) (id : BlockId) : Option Binding := (t.nameOf id).map (⟨id, ·⟩)

theorem Emit.target_of_mem_branches {g : Index} {block : Block} {target : Option String}
    {source : Option Source} {b : Branch} (hb : b ∈ branches g block target source) :
    b.target = if b.what.isFirst then target else none := by
  revert b
  cases branchList g block <;> rename_i hbranches <;> simp [hbranches, Opening.isFirst]

namespace Layout

variable {g : Index} {t : Table} {functions main : List BlockId}

/-! ### What an entry assigns -/

/-- The blocks of a chain before the last one have no names. -/
theorem binding?_of_mem_front (h : g.Named t functions main) {P : Option Place}
    {order : List BlockId} (hs : OrderedScope (g.scopeAt P) order) {c : Chain}
    (hc : c ∈ (g.scopeAt P).chains order) {front : List BlockId}
    (hfront : c.members = front ++ [c.terminal]) {id : BlockId} (hid : id ∈ front) :
    t.binding? id = none := by
  obtain ⟨l₁, l₂, rfl⟩ := List.append_of_mem hid
  obtain ⟨v, rest, hnext⟩ := List.exists_cons_of_ne_nil
    (show l₂ ++ [c.terminal] ≠ [] by simp)
  have hlinked := hs.runs.linked c hc
  rw [hfront, List.append_assoc, List.cons_append, hnext, List.isChain_append_cons_cons] at hlinked
  obtain ⟨-, rfl⟩ := h.consistent.mem_scopeAt.mp
    (hs.runs.inside c hc id (by rw [hfront]; simp)).1
  rw [Table.binding?, Option.map_eq_none_iff, ← Option.not_isSome_iff_eq_none, h.isSome_nameOf]
  rintro ⟨-, -, hread⟩
  rw [hlinked.2.1.not_isRead] at hread
  cases hread

/-- **An entry assigns what the table has for the blocks that it renders.** -/
theorem PartEntry.assigns?_eq (h : g.Named t functions main) {e : Entry}
    (he : PartEntry g t true e) : e.assigns?.toList = e.rendered.filterMap t.binding? := by
  have hg := h.consistent
  cases he with
  | pipeline P order hs c hc level source =>
    obtain ⟨front, hfront⟩ := List.getLast?_eq_some_iff.mp c.getLast?_members
    obtain ⟨last, hstages, hid⟩ := exists_last_stage hg hs hc
    have hnone : front.filterMap t.binding? = [] :=
      List.filterMap_eq_nil_iff.mpr fun id hid => binding?_of_mem_front h hs hc hfront hid
    have hnamed : c.members.filterMap t.binding? = (t.binding? c.terminal).toList := by
      rw [hfront, List.filterMap_append, hnone]
      cases hname : t.binding? c.terminal <;> simp [hname]
    rw [Entry.rendered, map_id_stages hg hs hc, hnamed, Entry.assigns?, hstages, Option.bind_some,
      hid]
    rfl
  | opening level owner target source what opens =>
    cases opens with
    | branch _ block hblock source _ b hb =>
      rw [Entry.assigns?, Entry.rendered, target_of_mem_branches hb]
      split
      · cases hname : t.nameOf owner <;> simp [Table.binding?, hname]
      · rfl
    | _ => rfl
  | filler e filler => cases filler <;> rfl
  | _ => rfl

theorem PartEntry.assigns?_of_target (h : g.Named t functions main) {e : Entry}
    (he : PartEntry g t true e) {name : String} (hname : e.target? = some name) :
    ∃ id, e.assigns? = some ⟨id, name⟩ := by
  cases he with
  | pipeline P order hs c hc level source =>
    obtain ⟨last, hstages, -⟩ := exists_last_stage h.consistent hs hc
    simp only [Entry.target?] at hname
    exact ⟨last.id, by simp only [Entry.assigns?, hstages, hname]; rfl⟩
  | opening level owner target source what =>
    simp only [Entry.target?] at hname
    exact ⟨owner, by simp [Entry.assigns?, hname]⟩
  | filler e filler => cases filler <;> cases hname
  | _ => cases hname

end Layout

/-! ### All assignments of a script -/

theorem Table.binding?_eq_some_iff {t : Table} (h : (t.entries.map Binding.blockId).Nodup)
    {id : BlockId} {x : Binding} : t.binding? id = some x ↔ x ∈ t.entries ∧ x.blockId = id := by
  constructor
  · intro hx
    obtain ⟨name, hname, rfl⟩ := Option.map_eq_some_iff.mp hx
    exact ⟨Binding.mem_of_nameIn hname, rfl⟩
  · rintro ⟨hx, rfl⟩
    rw [binding?, nameOf, Binding.nameIn, find?_key_of_mem h hx]
    rfl

/-- **The assignments of a script are the bindings of its table**, each made once. -/
theorem Index.Named.perm_assigns {g : Index} {t : Table} {functions main : List BlockId}
    (h : g.Named t functions main) (hids : (t.entries.map Binding.blockId).Nodup) :
    ((Layout.script g t functions main).entries.filterMap Entry.assigns?).Perm t.entries := by
  have hg := h.consistent
  have hblocks := hg.nodup_blocksOf h.nodup_written
  calc (Layout.script g t functions main).entries.filterMap Entry.assigns?
      = (Layout.script g t functions main).entries.flatMap
          fun e => e.rendered.filterMap t.binding? := by
        rw [List.filterMap_eq_flatMap_toList]
        exact List.flatMap_congr fun e he =>
          ((Layout.composed_script h.toOrdering).partEntry e he).assigns?_eq h
    _ = ((Layout.script g t functions main).entries.flatMap Entry.rendered).filterMap
          t.binding? := List.filterMap_flatMap.symm
    _ ~ (g.blocksOf (g.written functions main)).filterMap t.binding? :=
        (perm_rendered_script h.toOrdering).filterMap _
    _ ~ t.entries := by
        have hnodup : ((g.blocksOf (g.written functions main)).filterMap t.binding?).Nodup := by
          refine hblocks.filterMap fun id id' x hx hx' => ?_
          exact ((Table.binding?_eq_some_iff hids).mp hx).2.symm.trans
            ((Table.binding?_eq_some_iff hids).mp hx').2
        refine (List.perm_ext_iff_of_nodup hnodup hids.of_map).mpr fun x => ?_
        simp only [List.mem_filterMap, Table.binding?_eq_some_iff hids]
        constructor
        · rintro ⟨id, -, hx, -⟩
          exact hx
        · intro hx
          have hname := (Table.binding?_eq_some_iff hids).mpr ⟨hx, rfl⟩
          obtain ⟨name, hname, -⟩ := Option.map_eq_some_iff.mp hname
          obtain ⟨hid, hwritten, -⟩ := (h.isSome_nameOf x.blockId).mp (by rw [hname]; rfl)
          exact ⟨x.blockId, hg.mem_blocksOf.mpr ⟨hid, hwritten⟩, hx, rfl⟩

theorem Naming.IsName.isBreak_eq_false {l : List Char} (h : IsName l) {c : Char} (hc : c ∈ l) :
    Text.isBreak c = false := by
  rcases h.isAlphanum_or_eq hc with hchar | rfl
  · have hrange : 48 ≤ c.toNat ∧ c.toNat ≤ 122 := by
      delta Char.isAlphanum Char.isAlpha Char.isUpper Char.isLower Char.isDigit at hchar
      simp only [Bool.or_eq_true, Bool.and_eq_true, decide_eq_true_eq, UInt32.le_iff_toNat_le,
        ge_iff_le] at hchar
      have : c.toNat = c.val.toNat := rfl
      have : '0'.val.toNat = 48 ∧ '9'.val.toNat = 57 := ⟨rfl, rfl⟩
      have : 'A'.val.toNat = 65 ∧ 'Z'.val.toNat = 90 := ⟨rfl, rfl⟩
      have : 'a'.val.toNat = 97 ∧ 'z'.val.toNat = 122 := ⟨rfl, rfl⟩
      omega
    simp only [Text.isBreak, Bool.or_eq_false_iff, Bool.and_eq_false_iff, decide_eq_false_iff_not,
      beq_eq_false_iff_ne]
    omega
  · decide

theorem Entry.exists_lines_of_assigns {e : Entry} {x : Binding} (h : e.assigns? = some x)
    (hname : Naming.IsName x.name.toList) (size : Int) :
    ∃ level rest tail, e.lines size =
      (pad size level ++ ("$" ++ x.name ++ " = ") ++ rest) :: tail := by
  cases e with
  | pipeline level target source stages =>
    obtain ⟨last, -, hx⟩ := Option.bind_eq_some_iff.mp h
    obtain ⟨name, rfl, rfl⟩ := Option.map_eq_some_iff.mp hx
    have hbreak : ∀ c ∈ ("$" ++ name ++ " = ").toList, Text.isBreak c = false := by
      have hdollar : "$".toList.all (!Text.isBreak ·) := by decide
      have hequals : " = ".toList.all (!Text.isBreak ·) := by decide
      simp only [String.toList_append, List.forall_mem_append]
      refine ⟨⟨by simpa using hdollar, ?_⟩, by simpa using hequals⟩
      exact fun c hc => hname.isBreak_eq_false hc
    have hblank : Text.isBlankText ("$" ++ name ++ " = ") = false :=
      Text.isBlankText_append_left (Text.isBlankText_append_left (by decide) _) _
    obtain ⟨rest, tail, heq⟩ := Text.exists_indent_append (pad size level) hbreak hblank
      (pipelineText source stages)
    exact ⟨level, rest, tail, heq⟩
  | opening level owner target source what =>
    obtain ⟨name, rfl, rfl⟩ := Option.map_eq_some_iff.mp h
    exact ⟨level, what.text source, [], by simp [lines, assignment]⟩
  | _ => cases h

/-- **The variables of a script are different.**  A block has one binding at most, no two names
differ only in the case of their letters, and every name has the shape of a name.  The variables on
the left sides are those of the table: what a script assigns is what the table has, each once, for
the last block of the chain or for the container whose result is captured, and the first line of
the entry starts so.  A binder gives no name twice, whatever scopes it is asked to bind. -/
theorem binding_names_distinct {s : Snapshot} (hs : s.Valid) (options : GeneratorOptions) :
    ((s.generate options).bindings.map Binding.blockId).Nodup ∧
      ((s.generate options).bindings.map (Naming.foldCase ·.name)).Nodup ∧
      (∀ x ∈ (s.generate options).bindings, Naming.IsName x.name.toList) ∧
      (∀ es, (s.plan options.suffixLength).entries? = some es →
        (es.filterMap Entry.assigns?).Perm (s.generate options).bindings ∧
          (∀ e ∈ es, ∀ name, e.target? = some name → ∃ id, e.assigns? = some ⟨id, name⟩) ∧
          ∀ e ∈ es, ∀ x, e.assigns? = some x → ∃ level rest tail, e.lines options.indentSize =
            (Entry.pad options.indentSize level ++ ("$" ++ x.name ++ " = ") ++ rest) :: tail) ∧
      ∀ (b : Binder) (calls : List (Scope × List Chain × List BlockId)),
        ((b.bindScopes calls).1.map (Naming.foldCase ·.name)).Nodup := by
  obtain ⟨scopes, htable⟩ : ∃ scopes, (s.plan options.suffixLength).pass.table =
      (s.index.namesAfter { suffixLength := options.suffixLength } scopes).2 := by
    cases ho : Snapshot.orders s.index with
    | error cycle => exact ⟨[], (Snapshot.plan_of_cycle options.suffixLength ho).2.1⟩
    | ok o => exact ⟨_, (Snapshot.plan_of_orders hs options.suffixLength ho).1⟩
  have hids := s.index.nodup_ids_namesAfter { suffixLength := options.suffixLength } scopes
  have hfresh := s.index.fresh_namesAfter { suffixLength := options.suffixLength } scopes
  rw [← htable] at hids hfresh
  refine ⟨hids, hfresh.distinct, hfresh.shape, fun es h => ?_,
    fun b calls => (b.fresh_bindScopes calls).distinct⟩
  obtain ⟨functions, main, hnamed, rfl, -⟩ := Snapshot.plan_spec hs h
  have hperm := hnamed.perm_assigns hids
  refine ⟨hperm, fun e he name hname => ?_, fun e he x hx => ?_⟩
  · have hpart := (Layout.composed_script hnamed.toOrdering).partEntry e he
    exact hpart.assigns?_of_target hnamed hname
  · have hmem : x ∈ (s.plan options.suffixLength).pass.table.entries :=
      hperm.subset (List.mem_filterMap.mpr ⟨e, he, hx⟩)
    exact Entry.exists_lines_of_assigns hx (hfresh.shape x hmem) options.indentSize

/-- `a` and `b` ask for the same name, the counter for `b` gives what would be made up for `2`, and
neither the title nor the id of `--` has a letter. -/
def clashes : Snapshot where
  blocks := [
    { id := "a", command := "Get-Content", outputVariable := "rows" },
    { id := "b", command := "Import-Csv", outputVariable := "ROWS" },
    { id := "2", command := "Get-Item", title := "Rows" },
    { id := "--", command := "Get-Date", title := "!" },
    { id := "left", command := "Join-Rows", inputs := ["A", "B", "C", "D"] },
    { id := "right", command := "Join-Rows", inputs := ["A", "B", "C", "D"] }]
  connections := [
    { source := "a", target := "left", inlet := "A" },
    { source := "a", target := "right", inlet := "A" },
    { source := "b", target := "left", inlet := "B" },
    { source := "b", target := "right", inlet := "B" },
    { source := "2", target := "left", inlet := "C" },
    { source := "2", target := "right", inlet := "C" },
    { source := "--", target := "left", inlet := "D" },
    { source := "--", target := "right", inlet := "D" }]

theorem binding_names_distinct_clashes :
    (clashes.generate {}).bindings.map Binding.name = ["Rows", "ROWS_2", "Rows_2_2", "Result"] ∧
      ((clashes.generate {}).bindings.map (Naming.foldCase ·.name)).Nodup ∧
      ∃ es, (clashes.plan 4).entries? = some es ∧
        (es.filterMap Entry.assigns?).Perm (clashes.generate {}).bindings := by
  have hvalid : clashes.Valid := by constructor <;> decide
  obtain ⟨-, hdistinct, -, hassigns, -⟩ := binding_names_distinct hvalid {}
  have hplan : (clashes.plan 4).entries?.isSome := by decide +kernel
  obtain ⟨es, hes⟩ := Option.isSome_iff_exists.mp hplan
  exact ⟨by decide +kernel, hdistinct, es, hes, (hassigns es hes).1⟩

end BlockScript
