import BlockScript.Proofs.PipelineText
import BlockScript.Proofs.ScriptParts

/-!
# Presentation options are presentation only

The width of the indentation and the header are put on when the entries are written out; the plan
of a script knows neither.  Two scripts that differ in the width alone have the same lines up to the
spaces in front.  To say so across the trimming of the end, which takes whole lines and parts of
one, the spaces are taken away from the text (`Text.unindent`): this commutes with
joining lines, with trimming the end and with cutting at line breaks.

* `Text.splitOn_unindent`: cutting after unindenting is cutting, then dropping spaces.
* `Entry.map_unindent_lines`: **the lines of an entry are the same for every width**, up to the
  spaces in front.
* `Plan.join_header`: **a header stands in front of a script and changes nothing else**, if the
  script is not blank.
* `Index.Consistent.exists_root`: a graph with blocks has a block at the top level.  So its script
  has the banner of the execution part and is not blank.
-/

namespace BlockScript

namespace Text

/-! ### Texts without indentation -/

/-- The text without the spaces at the start of its lines.  `start` says whether the text stands at
the start of a line. -/
def unindent : Bool → List Char → List Char
  | _, [] => []
  | start, c :: cs => if start && c == ' ' then unindent true cs else c :: unindent (c == '\n') cs

theorem exists_unindent_append (start : Bool) (a : List Char) :
    ∃ after, ∀ b, unindent start (a ++ b) = unindent start a ++ unindent after b := by
  induction a generalizing start with
  | nil => exact ⟨start, fun b => rfl⟩
  | cons c a ih =>
    by_cases hspace : start && c == ' '
    · obtain ⟨after, hafter⟩ := ih true
      exact ⟨after, fun b => by simp only [List.cons_append, unindent, if_pos hspace, hafter]⟩
    · obtain ⟨after, hafter⟩ := ih (c == '\n')
      exact ⟨after, fun b => by simp only [List.cons_append, unindent, if_neg hspace, hafter]⟩

theorem unindent_append_break (start : Bool) (a b : List Char) :
    unindent start (a ++ '\n' :: b) = unindent start a ++ '\n' :: unindent true b := by
  obtain ⟨after, hafter⟩ := exists_unindent_append start a
  have hbreak : unindent after ('\n' :: b) = '\n' :: unindent true b := by simp [unindent]
  rw [hafter, hbreak]

theorem unindent_subset (start : Bool) (cs : List Char) : unindent start cs ⊆ cs := by
  induction cs generalizing start with
  | nil => exact List.Subset.refl _
  | cons c cs ih =>
    rw [unindent]
    split
    · exact List.subset_cons_of_subset c (ih true)
    · exact List.cons_subset_cons c (ih _)

theorem unindent_spaces (n : Nat) (cs : List Char) :
    unindent true (List.replicate n ' ' ++ cs) = unindent true cs := by
  induction n with
  | zero => rfl
  | succ n ih => simpa [List.replicate_succ, unindent] using ih

theorem splitOn_unindent_cons (start : Bool) {cs field : List Char} {fields : List (List Char)}
    (h : cs.splitOn '\n' = field :: fields) :
    (unindent start cs).splitOn '\n' =
      (if start then field.dropWhile (· == ' ') else field) ::
        fields.map (List.dropWhile (· == ' ')) := by
  induction cs generalizing start field fields with
  | nil =>
    obtain ⟨rfl, rfl⟩ := List.cons.inj h
    cases start <;> rfl
  | cons c cs ih =>
    obtain ⟨first, rest, hcs⟩ := List.exists_cons_of_ne_nil (List.splitOn_ne_nil '\n' cs)
    rw [List.splitOn_cons_eq_if_modifyHead, hcs] at h
    by_cases hbreak : c = '\n'
    · subst hbreak
      obtain ⟨rfl, rfl⟩ := List.cons.inj h
      have hrest := ih true hcs
      simp only [if_true] at hrest
      have hunindent : unindent start ('\n' :: cs) = '\n' :: unindent true cs := by simp [unindent]
      rw [hunindent, List.splitOn_cons_eq_if_modifyHead, hrest]
      cases start <;> rfl
    · have hc : (c == '\n') = false := by simpa using hbreak
      rw [hc] at h
      obtain ⟨rfl, rfl⟩ := List.cons.inj h
      by_cases hspace : start && c == ' '
      · obtain ⟨rfl, hblank⟩ := Bool.and_eq_true_iff.mp hspace
        rw [unindent, if_pos hspace, ih true hcs]
        simp [hblank]
      · have hrest := ih false hcs
        have hkeep : (if start then (c :: first).dropWhile (· == ' ') else c :: first) =
            c :: first := by
          cases start with
          | false => rfl
          | true => simpa using hspace
        rw [unindent, if_neg hspace, List.splitOn_cons_eq_if_modifyHead, hc, hrest, hkeep]
        rfl

/-- **Cutting after unindenting is cutting, then dropping the spaces in front of every line.** -/
theorem splitOn_unindent (cs : List Char) :
    (unindent true cs).splitOn '\n' = (cs.splitOn '\n').map (List.dropWhile (· == ' ')) := by
  obtain ⟨field, fields, h⟩ := List.exists_cons_of_ne_nil (List.splitOn_ne_nil '\n' cs)
  rw [splitOn_unindent_cons true h, h]
  rfl

/-! ### Trimming the end -/

theorem trimEndChars_append_blank {tail : List Char} (h : ∀ c ∈ tail, isBlank c)
    (cs : List Char) : trimEndChars (cs ++ tail) = trimEndChars cs := by
  rw [trimEndChars, List.reverse_append, List.dropWhile_append_of_pos]
  · rfl
  · intro c hc
    exact h c (List.mem_reverse.mp hc)

/-- Trimming the end does not reach across what is not blank. -/
theorem trimEndChars_append {cs : List Char} (h : ∃ c ∈ cs, isBlank c = false)
    (front : List Char) : trimEndChars (front ++ cs) = front ++ trimEndChars cs := by
  obtain ⟨c, hc, hblank⟩ := h
  have hne : (cs.reverse.dropWhile isBlank).isEmpty = false := by
    rw [List.isEmpty_eq_false_iff]
    exact List.ne_nil_of_mem (mem_dropWhile_isBlank (List.mem_reverse.mpr hc) hblank)
  rw [trimEndChars, List.reverse_append, List.dropWhile_append, hne]
  simp [trimEndChars]

theorem trimEndChars_unindent (start : Bool) (cs : List Char) :
    trimEndChars (unindent start cs) = unindent start (trimEndChars cs) := by
  induction cs using List.reverseRecOn with
  | nil => rfl
  | append_singleton cs c ih =>
    obtain ⟨after, hafter⟩ := exists_unindent_append start cs
    rw [hafter]
    cases hblank : isBlank c with
    | true =>
      have hc : ∀ d ∈ [c], isBlank d := by simpa using hblank
      rw [trimEndChars_append_blank hc, ← ih,
        trimEndChars_append_blank fun d hd => hc d (unindent_subset after [c] hd)]
    | false =>
      have hmem : ∃ d ∈ [c], isBlank d = false := ⟨c, List.mem_singleton_self c, hblank⟩
      have hspace : (c == ' ') = false := by
        by_contra heq
        rw [Bool.not_eq_false, beq_iff_eq] at heq
        rw [heq] at hblank
        exact absurd hblank (by decide)
      have hone : unindent after [c] = [c] := by simp [unindent, hspace]
      have htrim : trimEndChars [c] = [c] := by simp [trimEndChars, hblank]
      rw [hone, trimEndChars_append hmem, trimEndChars_append hmem, htrim, hafter, hone]

theorem trimEnd_append {s : String} (h : isBlankText s = false) (front : String) :
    trimEnd (front ++ s) = front ++ trimEnd s := by
  rw [trimEnd, String.toList_append, trimEndChars_append (isBlankText_eq_false_iff.mp h),
    String.ofList_append, String.ofList_toList]
  rfl

/-! ### Joined lines -/

theorem toList_intercalate_cons (first second : String) (rest : List String) :
    ("\n".intercalate (first :: second :: rest)).toList =
      first.toList ++ '\n' :: ("\n".intercalate (second :: rest)).toList := by
  rw [String.intercalate_cons_cons, String.append_assoc, String.toList_append, String.toList_append]
  rfl

theorem unindent_intercalate_congr {a b : List String}
    (h : a.map (unindent true ·.toList) = b.map (unindent true ·.toList)) :
    unindent true ("\n".intercalate a).toList = unindent true ("\n".intercalate b).toList := by
  induction a generalizing b with
  | nil =>
    obtain rfl := List.map_eq_nil_iff.mp h.symm
    rfl
  | cons first rest ih =>
    cases b with
    | nil => cases h
    | cons first' rest' =>
      obtain ⟨hfirst, hrest⟩ := List.cons.inj h
      simp only at hfirst
      cases rest with
      | nil =>
        obtain rfl := List.map_eq_nil_iff.mp hrest.symm
        simpa using hfirst
      | cons second rest =>
        cases rest' with
        | nil => cases hrest
        | cons second' rest' =>
          rw [toList_intercalate_cons, toList_intercalate_cons, unindent_append_break,
            unindent_append_break, hfirst, ih hrest]

end Text

open Text

/-! ### The width of the indentation -/

theorem Entry.unindent_padded (size level : Int) (text : String) :
    unindent true (pad size level ++ text).toList = unindent true text.toList := by
  rw [pad, spaces, String.toList_append, String.toList_ofList, unindent_spaces]

/-- **The lines of an entry are the same for every width**, up to the spaces in front. -/
theorem Entry.map_unindent_lines (n m : Int) (e : Entry) :
    (e.lines n).map (unindent true ·.toList) = (e.lines m).map (unindent true ·.toList) := by
  cases e with
  | pipeline level target source stages =>
    simp only [lines, indent, List.map_map]
    apply List.map_congr_left
    intro line _
    simp only [Function.comp_apply, padLine]
    split
    · rfl
    · rw [unindent_padded, unindent_padded]
  | _ => simp only [lines, List.map_cons, List.map_nil, String.append_assoc, unindent_padded]

namespace Plan

theorem unindent_join (lines : List String) :
    unindent true (join lines).toList =
      trimEndChars (unindent true ("\n".intercalate lines).toList) ++ ['\n'] := by
  rw [join, String.toList_append, trimEnd, String.toList_ofList, trimEndChars_unindent]
  exact unindent_append_break true _ []

/-- **A script has the same lines for every width**, up to the spaces in front. -/
theorem unindent_text (options : GeneratorOptions) (size : Int) (p : Plan) :
    unindent true (p.text { options with indentSize := size }).toList =
      unindent true (p.text options).toList := by
  rw [text, text]
  cases p.entries? with
  | none => rfl
  | some entries =>
    have hlines : (lines { options with indentSize := size } entries).map (unindent true ·.toList) =
        (lines options entries).map (unindent true ·.toList) := by
      simp only [lines, List.map_flatMap]
      exact List.flatMap_congr fun e _ => Entry.map_unindent_lines size options.indentSize e
    show unindent true (join _).toList = unindent true (join _).toList
    rw [unindent_join, unindent_join, unindent_intercalate_congr hlines]

/-! ### The header -/

/-- The lines of the header: a title between two rules. -/
def headerLines : List String := [rule, "# Auto-generated PowerShell 5.1 Script", rule]

/-- **A header stands in front of a script, with a blank line between, and changes nothing else** if
the script is not blank. -/
theorem join_header {lines : List String} {line : String} (hmem : line ∈ lines)
    (hline : isBlankText line = false) :
    join (headerLines ++ "" :: lines) = "\n".intercalate headerLines ++ "\n\n" ++ join lines := by
  obtain ⟨first, rest, rfl⟩ := List.exists_cons_of_ne_nil (List.ne_nil_of_mem hmem)
  have hbody := isBlankText_intercalate "\n" hmem hline
  have hsplit : "\n".intercalate (headerLines ++ "" :: first :: rest) =
      "\n".intercalate headerLines ++ "\n\n" ++ "\n".intercalate (first :: rest) := by
    have hbreaks : "\n\n" = "\n" ++ "\n" := by decide
    simp only [headerLines, hbreaks, List.cons_append, List.nil_append,
      String.intercalate_cons_cons, String.intercalate_singleton, String.append_assoc,
      String.empty_append]
  rw [join, join, hsplit, trimEnd_append hbody]
  exact String.append_assoc

theorem join_header_nil : join (headerLines ++ [""]) = "\n".intercalate headerLines ++ "\n" := by
  have hrule : isBlankText (rule ++ "\n") = false := by decide
  have htrim : trimEnd (rule ++ "\n") = rule := by decide
  simp only [join, headerLines, List.cons_append, List.nil_append, String.intercalate_cons_cons,
    String.intercalate_singleton, String.append_empty]
  rw [trimEnd_append (isBlankText_append_right _ hrule), trimEnd_append hrule, htrim]

end Plan

/-! ### The top level -/

theorem Index.Consistent.exists_root {g : Index} (h : g.Consistent) {id : BlockId}
    (hid : id ∈ g.ids) : ∃ root ∈ g.ids, g.parent? root = none := by
  -- outward from the scope of the block
  have hscope : ∀ P, (∃ id ∈ g.ids, g.parent? id = P) → ∃ root ∈ g.ids, g.parent? root = none := by
    intro P
    induction P using h.outward with
    | top => exact fun hroot => hroot
    | zone place ih =>
      rintro ⟨id, -, hparent⟩
      exact ih ⟨place.container, h.container_mem_ids hparent, rfl⟩
  exact hscope _ ⟨id, hid, rfl⟩

/-- The blocks of the top level, or the functions, depend on each other in a cycle. -/
def Index.Stops (g : Index) : Prop :=
  (∃ cycle, g.topScope.sorted = .error cycle) ∨ ∃ cycle, g.callableScope.sorted = .error cycle

namespace Snapshot

/-- The bindings and the diagnostics depend on the length of suffixes only. -/
theorem generate_congr {a b : GeneratorOptions} (h : a.suffixLength = b.suffixLength)
    (s : Snapshot) : (s.generate a).bindings = (s.generate b).bindings ∧
      (s.generate a).diagnostics = (s.generate b).diagnostics := by
  simp only [generate, Plan.generation, Generation.diagnostics, Generation.findings, h, and_self]

theorem stops_iff {g : Index} : g.Stops ↔ ∃ cycle, orders g = .error cycle := by
  simp only [Index.Stops, orders]
  cases g.topScope.sorted with
  | error cycle => exact ⟨fun _ => ⟨cycle, rfl⟩, fun _ => Or.inl ⟨cycle, rfl⟩⟩
  | ok main =>
    cases g.callableScope.sorted with
    | error cycle => exact ⟨fun _ => ⟨cycle, rfl⟩, fun _ => Or.inr ⟨cycle, rfl⟩⟩
    | ok functions =>
      constructor
      · rintro (⟨cycle, h⟩ | ⟨cycle, h⟩) <;> cases h
      · rintro ⟨cycle, h⟩
        cases h

theorem orders_of_no_blocks {s : Snapshot} (h : s.blocks = []) : orders s.index = .ok ([], []) := by
  have htop : s.index.topScope.sorted = .ok [] := by
    have hids : s.index.topScope.ids = [] := by
      simp [index, Index.topScope, Index.topLevel, h]
    rw [Scope.sorted, hids]
    rfl
  have hcallable : s.index.callableScope.sorted = .ok [] := by
    have hids : s.index.callableScope.ids = [] := by
      simp [index, Index.callableScope, Index.callables, h]
    rw [Scope.sorted, hids]
    rfl
  rw [orders, htop, hcallable]
  rfl

variable {s : Snapshot} (hs : s.Valid)

include hs

theorem Valid.main_ne_nil (hblocks : s.blocks ≠ []) {functions main : List BlockId}
    (ho : orders s.index = .ok (functions, main)) : main ≠ [] := by
  have hg := hs.consistent
  obtain ⟨b, hb⟩ := List.exists_mem_of_ne_nil s.blocks hblocks
  obtain ⟨root, hroot, hparent⟩ := hg.exists_root (List.mem_map_of_mem hb)
  have hmem : root ∈ (s.index.scopeAt none).ids := hg.mem_scopeAt.mpr ⟨hroot, hparent⟩
  obtain ⟨hperm, -⟩ := Scope.sorted_ok (hg.nodup_scopeAt none) (hg.ordering ho).top
  exact List.ne_nil_of_mem (hperm.mem_iff.mpr hmem)

theorem executionBanner_mem_lines (hblocks : s.blocks ≠ []) {functions main : List BlockId}
    (ho : orders s.index = .ok (functions, main)) (t : Table) (size : Int) :
    Plan.executionBanner ∈
      (Layout.script s.index t functions main).entries.flatMap (Entry.lines size) := by
  obtain ⟨first, rest, rfl⟩ := List.exists_cons_of_ne_nil (hs.main_ne_nil hblocks ho)
  refine List.mem_flatMap.mpr ⟨.comment Plan.executionBanner, ?_, List.mem_singleton_self _⟩
  exact List.mem_append_right _ List.mem_cons_self

end Snapshot

/-- **Presentation options are presentation only.**  Whatever the width of the indentation, the
bindings and the diagnostics are the same, and the lines of the scripts are the same once the spaces
in front are dropped.  With and without the header, the bindings and the diagnostics are the
same; when a cycle at the top level or between the functions stops the generation, both scripts are
the marker, without blocks the header is the whole script, and in all other cases the header and a
blank line stand in front of the script without it. -/
theorem presentation_only {s : Snapshot} (hs : s.Valid) (options : GeneratorOptions) :
    (∀ size : Int,
      let resized := s.generate { options with indentSize := size }
      resized.bindings = (s.generate options).bindings ∧
        resized.diagnostics = (s.generate options).diagnostics ∧
        (resized.script.toList.splitOn '\n').map (List.dropWhile (· == ' ')) =
          ((s.generate options).script.toList.splitOn '\n').map (List.dropWhile (· == ' '))) ∧
    let headed := s.generate { options with includeHeader := true }
    let plain := s.generate { options with includeHeader := false }
    headed.bindings = plain.bindings ∧ headed.diagnostics = plain.diagnostics ∧
      (s.index.Stops →
        headed.script = Plan.cycleMarker ++ "\n" ∧ plain.script = Plan.cycleMarker ++ "\n") ∧
      (s.blocks = [] → headed.script = "\n".intercalate Plan.headerLines ++ "\n") ∧
      (s.blocks ≠ [] → ¬s.index.Stops →
        headed.script = "\n".intercalate Plan.headerLines ++ "\n\n" ++ plain.script) := by
  have hsame : ∀ changed : GeneratorOptions, changed.suffixLength = options.suffixLength →
      (s.generate changed).bindings = (s.generate options).bindings ∧
        (s.generate changed).diagnostics = (s.generate options).diagnostics :=
    fun changed h => Snapshot.generate_congr h s
  refine ⟨?_, ?_⟩
  · intro size
    obtain ⟨hbindings, hdiagnostics⟩ := hsame { options with indentSize := size } rfl
    refine ⟨hbindings, hdiagnostics, ?_⟩
    rw [← splitOn_unindent, ← splitOn_unindent]
    exact congrArg (List.splitOn '\n') (Plan.unindent_text options size _)
  obtain ⟨hbindings, hdiagnostics⟩ := hsame { options with includeHeader := true } rfl
  obtain ⟨hbindings', hdiagnostics'⟩ := hsame { options with includeHeader := false } rfl
  refine ⟨hbindings.trans hbindings'.symm, hdiagnostics.trans hdiagnostics'.symm, ?_, ?_, ?_⟩
  · intro hstops
    obtain ⟨cycle, ho⟩ := Snapshot.stops_iff.mp hstops
    have hentries := (Snapshot.plan_of_cycle options.suffixLength ho).1
    simp only [Snapshot.generate, Plan.generation, Plan.text, hentries, and_self]
  · intro hblocks
    have ho := Snapshot.orders_of_no_blocks hblocks
    have hentries := (Snapshot.plan_of_orders hs options.suffixLength ho).2.1
    simp only [Snapshot.generate, Plan.generation, Plan.text, hentries]
    exact Plan.join_header_nil
  · intro hblocks hgoes
    cases ho : Snapshot.orders s.index with
    | error cycle => exact absurd (Snapshot.stops_iff.mpr ⟨cycle, ho⟩) hgoes
    | ok o =>
      obtain ⟨functions, main⟩ := o
      have hentries := (Snapshot.plan_of_orders hs options.suffixLength ho).2.1
      have hbanner := Snapshot.executionBanner_mem_lines hs hblocks ho
        (s.plan options.suffixLength).pass.table options.indentSize
      simp only [Snapshot.generate, Plan.generation, Plan.text, hentries]
      exact Plan.join_header hbanner (by decide)

/-- A condition and a body of several lines, one of them blank and one of them indented, inside a
loop. -/
def manyLines : Snapshot where
  blocks := [
    { id := "loop", container := some (.forEach ["choice"]) },
    { id := "choice", container := some (.ifElse "$a -and\n  $b" ["body"] []) },
    { id := "body", scriptBody := "first\n\n  second" }]

theorem presentation_only_manyLines :
    manyLines.Valid ∧ ¬manyLines.index.Stops ∧
      ((manyLines.generate { indentSize := -1 }).script.toList.splitOn '\n').map
          (List.dropWhile (· == ' ')) =
        ((manyLines.generate {}).script.toList.splitOn '\n').map (List.dropWhile (· == ' ')) ∧
      (manyLines.generate {}).script = "\n".intercalate Plan.headerLines ++ "\n\n" ++
        (manyLines.generate { includeHeader := false }).script := by
  have hvalid : manyLines.Valid := by constructor <;> decide
  have hgoes : ¬manyLines.index.Stops := by
    rw [Snapshot.stops_iff]
    rintro ⟨cycle, hcycle⟩
    cases hcycle
  obtain ⟨hsize, -, -, -, -, hheader⟩ := presentation_only hvalid {}
  exact ⟨hvalid, hgoes, (hsize (-1)).2.2, hheader (by decide) hgoes⟩

/-- Two functions that lead to each other, one of them in a loop, so that the blocks of the top
level can be ordered. -/
def mutualFunctions : Snapshot where
  blocks := [
    { id := "f1", container := some (.function "Invoke-One" "" []) },
    { id := "loop", container := some (.forEach ["f2"]) },
    { id := "f2", container := some (.function "Invoke-Two" "" []) }]
  connections := [{ source := "f1", target := "f2" }, { source := "f2", target := "f1" }]

/-- A cycle between functions takes the header away although the top level has none. -/
theorem header_lost_on_function_cycle :
    mutualFunctions.Valid ∧ mutualFunctions.index.topScope.sorted = .ok ["f1", "loop"] ∧
      (mutualFunctions.generate {}).script = Plan.cycleMarker ++ "\n" ∧
      (mutualFunctions.generate {}).script ≠ "\n".intercalate Plan.headerLines ++ "\n\n" ++
        (mutualFunctions.generate { includeHeader := false }).script := by
  exact ⟨by constructor <;> decide, by decide +kernel, by decide +kernel, by decide +kernel⟩

end BlockScript
