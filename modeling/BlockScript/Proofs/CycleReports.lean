import BlockScript.Proofs.InScopeConnections
import BlockScript.Proofs.TextMarks
import BlockScript.Service.Render
import Mathlib.Data.List.Infix

/-!
# Cycles are reported in the script and beside it

A zone with a cycle is written as a marker, and an error says so; when the whole graph has one, the
script is the marker and the error is one.  The marker starts with a number sign.  If the texts
of the blocks have none, nothing else in a script looks like it, so **a script holds the marker as
often as there are errors** (`Layout.Composed.lineReports_lines` for the lines of a script, by
induction on how it is put together).

Hence a strict request is refused, with the messages of the errors, or its script has no marker.
-/

namespace BlockScript

namespace Text

/-! ### How often a text holds another -/

/-- How often a text holds `needle`. -/
def occurrences (needle text : List Char) : Nat := text.tails.countP (needle.isPrefixOf ·)

theorem occurrences_cons (needle : List Char) (c : Char) (cs : List Char) :
    occurrences needle (c :: cs) =
      occurrences needle cs + if needle.isPrefixOf (c :: cs) then 1 else 0 := by
  rw [occurrences, List.tails_cons, List.countP_cons]
  rfl

/-- A text without one of the characters of `needle` does not hold it. -/
theorem occurrences_eq_zero {needle text : List Char} {c : Char} (hc : c ∈ needle)
    (h : c ∉ text) : occurrences needle text = 0 := by
  rw [occurrences, List.countP_eq_zero]
  intro tail htail hstart
  have hneedle : needle <+: tail := List.isPrefixOf_iff_prefix.mp hstart
  exact h (((List.mem_tails _ _).mp htail).subset (hneedle.subset hc))

/-- A text that starts with `needle`, and has its first character nowhere else, holds it once. -/
theorem occurrences_self_append {c : Char} {needle b : List Char} (hneedle : c ∉ needle)
    (hb : c ∉ b) : occurrences (c :: needle) (c :: needle ++ b) = 1 := by
  have hrest : c ∉ needle ++ b := fun hmem => (List.mem_append.mp hmem).elim hneedle hb
  have hstart : (c :: needle).isPrefixOf (c :: (needle ++ b)) :=
    List.isPrefixOf_iff_prefix.mpr (List.prefix_append (c :: needle) b)
  rw [List.cons_append, occurrences_cons, occurrences_eq_zero List.mem_cons_self hrest,
    if_pos hstart]

/-- `needle` starts a text within its first part if it does not reach over into the second. -/
theorem prefix_append_iff {needle l b : List Char}
    (h : ∀ beyond, beyond <+: b → needle = l ++ beyond → beyond = []) :
    needle <+: l ++ b ↔ needle <+: l := by
  refine ⟨fun hneedle => ?_, fun hneedle => hneedle.trans (List.prefix_append l b)⟩
  rcases List.prefix_or_prefix_of_prefix hneedle (List.prefix_append l b) with
    hl | ⟨beyond, hbeyond⟩
  · exact hl
  · have hbeyond' : beyond <+: b := by
      rwa [← hbeyond, List.prefix_append_right_inj] at hneedle
    have hnil := h beyond hbeyond' hbeyond.symm
    exact ⟨[], by rw [← hbeyond, hnil, List.append_nil, List.append_nil]⟩

/-- What follows a text counts for itself if no `needle` that starts in the text reaches into it. -/
theorem occurrences_append {needle a b : List Char} (hneedle : needle ≠ [])
    (h : ∀ l, l <:+ a → l ≠ [] → ∀ beyond, beyond <+: b → needle = l ++ beyond → beyond = []) :
    occurrences needle (a ++ b) = occurrences needle a + occurrences needle b := by
  obtain ⟨c, hc⟩ := List.exists_mem_of_ne_nil needle hneedle
  induction a with
  | nil => rw [occurrences_eq_zero hc List.not_mem_nil, Nat.zero_add, List.nil_append]
  | cons d a ih =>
    have hstart : needle.isPrefixOf (d :: (a ++ b)) = needle.isPrefixOf (d :: a) := by
      rw [Bool.eq_iff_iff, List.isPrefixOf_iff_prefix, List.isPrefixOf_iff_prefix]
      exact prefix_append_iff (h (d :: a) (List.suffix_refl _) (List.cons_ne_nil _ _))
    have hrest := ih fun l hl => h l (hl.trans (List.suffix_cons d a))
    rw [List.cons_append, occurrences_cons, occurrences_cons, hstart, hrest]
    omega

/-- A text in front that lacks the first character of `needle` does not count. -/
theorem occurrences_append_left {c : Char} {needle a : List Char} (ha : c ∉ a) (b : List Char) :
    occurrences (c :: needle) (a ++ b) = occurrences (c :: needle) b := by
  rw [occurrences_append (List.cons_ne_nil _ _), occurrences_eq_zero List.mem_cons_self ha,
    Nat.zero_add]
  intro l hl hne beyond _ heq
  obtain ⟨d, rest, rfl⟩ := List.exists_cons_of_ne_nil hne
  obtain ⟨rfl, -⟩ := List.cons.inj heq
  exact absurd (hl.subset List.mem_cons_self) ha

/-- A text at the end that lacks the last character of `needle` does not count. -/
theorem occurrences_append_right {c : Char} {needle b : List Char} (hb : c ∉ b) (a : List Char) :
    occurrences (needle ++ [c]) (a ++ b) = occurrences (needle ++ [c]) a := by
  have hc : c ∈ needle ++ [c] := List.mem_append_right _ List.mem_cons_self
  rw [occurrences_append (List.ne_nil_of_mem hc), occurrences_eq_zero hc hb, Nat.add_zero]
  intro l _ _ beyond hbeyond heq
  rcases List.eq_nil_or_concat beyond with rfl | ⟨front, d, rfl⟩
  · rfl
  · rw [List.concat_eq_append, ← List.append_assoc] at heq
    obtain ⟨-, hd⟩ := List.append_inj' heq rfl
    obtain rfl := List.singleton_inj.mp hd
    exact absurd (hbeyond.subset (by simp)) hb

/-- A character that `needle` does not have separates what it can be found in. -/
theorem occurrences_separated {sep : Char} {needle : List Char} (hneedle : needle ≠ [])
    (hsep : sep ∉ needle) (a b : List Char) :
    occurrences needle (a ++ sep :: b) = occurrences needle a + occurrences needle b := by
  have hbeyond : ∀ l beyond, beyond <+: sep :: b → needle = l ++ beyond → beyond = [] := by
    intro l beyond hbeyond heq
    cases beyond with
    | nil => rfl
    | cons d beyond =>
      obtain ⟨rfl, -⟩ := List.cons_prefix_cons.mp hbeyond
      exact absurd (heq ▸ List.mem_append_right l List.mem_cons_self) hsep
  have hb : needle.isPrefixOf (sep :: b) = false := by
    rw [← Bool.not_eq_true, List.isPrefixOf_iff_prefix]
    exact fun h => hneedle (hbeyond [] needle h rfl)
  rw [occurrences_append hneedle fun l _ _ => hbeyond l, occurrences_cons, hb]
  rfl

end Text

open Text

/-! ### The marker of a cycle -/

namespace Plan

/-- What the markers of cycles start with. -/
def cycleSign : List Char := "# ERROR: Cycle detected".toList

/-- How often a text says that there is a cycle. -/
def cycleReports (text : String) : Nat := occurrences cycleSign text.toList

theorem cycleReports_eq_zero {text : String} (h : '#' ∉ text.toList) : cycleReports text = 0 :=
  occurrences_eq_zero (by decide) h

/-- Blanks at the end do not count: the sign ends in a letter. -/
theorem occurrences_cycleSign_append_blank {b : List Char} (hb : ∀ c ∈ b, isBlank c)
    (a : List Char) : occurrences cycleSign (a ++ b) = occurrences cycleSign a := by
  have hlast : 'd' ∉ b := fun hmem => absurd (hb 'd' hmem) (by decide)
  have hsign : cycleSign = "# ERROR: Cycle detecte".toList ++ ['d'] := by decide
  rw [hsign]
  exact occurrences_append_right hlast a

/-- How often lines say that there is a cycle. -/
def lineReports : List String → Nat
  | [] => 0
  | line :: lines => cycleReports line + lineReports lines

theorem lineReports_append (a b : List String) :
    lineReports (a ++ b) = lineReports a + lineReports b := by
  induction a with
  | nil => exact (Nat.zero_add _).symm
  | cons line a ih =>
    rw [List.cons_append, lineReports, lineReports, ih]
    omega

theorem lineReports_eq_zero {lines : List String} (h : ∀ line ∈ lines, '#' ∉ line.toList) :
    lineReports lines = 0 := by
  induction lines with
  | nil => rfl
  | cons line lines ih =>
    obtain ⟨hline, hlines⟩ := List.forall_mem_cons.mp h
    rw [lineReports, cycleReports_eq_zero hline, ih hlines]

theorem cycleReports_intercalate (lines : List String) :
    cycleReports ("\n".intercalate lines) = lineReports lines := by
  induction lines with
  | nil => exact cycleReports_eq_zero List.not_mem_nil
  | cons first rest ih =>
    cases rest with
    | nil => simp [lineReports]
    | cons second rest =>
      rw [lineReports, ← ih, String.intercalate_cons_cons, String.append_assoc, cycleReports,
        String.toList_append, String.toList_append]
      exact occurrences_separated (by decide) (by decide) _ _

/-- **A script says as often that there is a cycle as its lines do.** -/
theorem cycleReports_join (lines : List String) :
    cycleReports (join lines) = lineReports lines := by
  have hbreak : "\n".toList.all isBlank := by decide
  obtain ⟨tail, htail, heq⟩ := exists_trimEndChars ("\n".intercalate lines).toList
  rw [← cycleReports_intercalate, cycleReports, cycleReports, join, String.toList_append,
    occurrences_cycleSign_append_blank (List.all_eq_true.mp hbreak), trimEnd, String.toList_ofList,
    ← occurrences_cycleSign_append_blank htail, ← heq]

end Plan

open Plan

namespace Entry

theorem lineReports_of_lineMarks {size : Int} {e : Entry} (h : '#' ∉ e.lineMarks size) :
    lineReports (e.lines size) = 0 := by
  refine lineReports_eq_zero fun line hline hmem => h (List.mem_flatMap.mpr ⟨line, hline, ?_⟩)
  exact List.mem_filter.mpr ⟨hmem, rfl⟩

theorem cycleReports_padded (size level : Int) (text : String) :
    cycleReports (pad size level ++ text) = cycleReports text := by
  have hpad : '#' ∉ (pad size level).toList := by
    intro hmem
    have hmarks : '#' ∈ marks (spaces (level * size)).toList := List.mem_filter.mpr ⟨hmem, rfl⟩
    rw [marks_spaces] at hmarks
    exact List.not_mem_nil hmarks
  rw [cycleReports, String.toList_append]
  exact occurrences_append_left hpad _

theorem lineReports_brokenZone (size level : Int) (place : Place) :
    lineReports ((brokenZone level place).lines size) = 1 := by
  have hsign : "# ERROR: Cycle detected in zone '".toList = cycleSign ++ " in zone '".toList := by
    decide
  have hname : '#' ∉ place.zone.name.toList := by cases place.zone <;> decide
  have hrest : '#' ∉ " in zone '".toList ++ (place.zone.name ++ "'!").toList := by
    simp [hname]
  rw [lines, lineReports, String.append_assoc, String.append_assoc, cycleReports_padded,
    cycleReports, String.toList_append, hsign, List.append_assoc]
  exact congrArg (· + 0) (occurrences_self_append (by decide) hrest)

theorem Filler.lineReports_lines {whole : Bool} {e : Entry} (h : e.Filler whole) (size : Int) :
    lineReports (e.lines size) = 0 := by
  cases h with
  | blank =>
    rw [lines]
    decide
  | emptyZone _ level place =>
    rw [lines, lineReports, cycleReports_padded]
    decide
  | parameters _ level text =>
    apply lineReports_of_lineMarks
    rw [lineMarks_parameters]
    exact List.not_mem_nil
  | functionsBanner =>
    rw [lines]
    decide
  | executionBanner =>
    rw [lines]
    decide

end Entry

theorem composable_not_mem_numberSign : Composable ('#' ∉ ·) where
  nil := List.not_mem_nil
  append := fun ha hb h => (List.mem_append.mp h).elim ha hb
  braces := fun ha => by simpa using ha

/-- **The lines of a script say as often that there is a cycle as there are errors.** -/
theorem Layout.Composed.lineReports_lines {g : Index} {t : Table} (ht : t.Shaped)
    (htexts : ∀ b ∈ g.blocks, ∀ text ∈ b.texts, '#' ∉ marks text.toList) (size : Int)
    {part : Layout} (h : Composed g t true part) :
    lineReports (part.entries.flatMap (Entry.lines size)) =
      part.findings.countP (·.level == .error) := by
  induction h with
  | nothing => rfl
  | append a b _ _ iha ihb =>
    rw [List.flatMap_append, lineReports_append, List.countP_append, iha, ihb]
  | warning f level_eq => simp [level_eq, lineReports]
  | filler e filler =>
    rw [List.flatMap_singleton, filler.lineReports_lines]
    rfl
  | pipeline P order ordered c mem level source provided =>
    rw [List.flatMap_singleton, Entry.lineReports_of_lineMarks (Entry.lineMarks_pipeline
      composable_not_mem_numberSign ht htexts provided _ size level _)]
    rfl
  | framed level owner target source what opens inner _ ih =>
    obtain ⟨front, hmarks, hfront⟩ := opens.marks_text composable_not_mem_numberSign ht htexts
    have hopening :
        lineReports ((Entry.opening level owner target source what).lines size) = 0 := by
      apply Entry.lineReports_of_lineMarks
      rw [Entry.lineMarks_opening, hmarks]
      exact composable_not_mem_numberSign.append hfront (by decide)
    have hclosing : lineReports ((Entry.closing level owner).lines size) = 0 := by
      apply Entry.lineReports_of_lineMarks
      rw [Entry.lineMarks_closing]
      decide
    rw [List.cons_append, List.flatMap_cons, List.flatMap_append, List.flatMap_singleton,
      lineReports_append, lineReports_append, hopening, hclosing, ih, Nat.zero_add, Nat.add_zero]
  | broken level place cycle =>
    rw [List.flatMap_singleton, Entry.lineReports_brokenZone]
    rfl

/-! ### Errors -/

theorem Finding.code_of_level {f : Finding} (h : f.level = .error) : f.code = .cycle := by
  cases f <;> first | rfl | cases h

theorem Finding.level_of_isReference {f : Finding} (h : f.isReference) : f.level = .warning := by
  cases f <;> first | rfl | cases h

theorem Generation.length_errors (g : Generation) :
    (g.diagnostics.filter Diagnostic.isError).length =
      g.findings.countP (·.level == .error) := by
  rw [diagnostics, ← List.countP_eq_length_filter, List.countP_map]
  rfl

/-- **A script says as often that there is a cycle as there are errors.** -/
theorem Snapshot.Valid.cycleReports_generate {s : Snapshot} (hs : s.Valid)
    (htexts : ∀ text ∈ s.texts, '#' ∉ text.toList) (options : GeneratorOptions) :
    cycleReports (s.generate options).script =
      ((s.generate options).diagnostics.filter Diagnostic.isError).length := by
  have hindexing : s.findings.countP (·.level == .error) = 0 := by
    rw [List.countP_eq_zero]
    intro f hf
    rw [Finding.level_of_isReference (isReference_of_mem_findings hf)]
    decide
  rw [Generation.length_errors]
  rcases hs.composed_generate options with
    ⟨cycle, hscript, hfindings⟩ | ⟨part, hpart, hscript, hfindings⟩
  · rw [hscript, hfindings, List.countP_append, hindexing]
    show cycleReports (cycleMarker ++ "\n") = 1
    decide
  · have hblocks : ∀ b ∈ s.index.blocks, ∀ text ∈ b.texts, '#' ∉ marks text.toList := by
      intro b hb text htext hmem
      exact htexts text (List.mem_flatMap.mpr ⟨b, hb, htext⟩) (List.mem_of_mem_filter hmem)
    have hheader : lineReports ((if options.includeHeader then header else []).flatMap
        (Entry.lines options.indentSize)) = 0 := by
      split
      · rw [lines_header]
        decide
      · rfl
    have hentries := hpart.lineReports_lines (hs.shaped_plan options.suffixLength) hblocks
      options.indentSize
    rw [hscript, cycleReports_join, lines, List.flatMap_append, lineReports_append, hheader,
      hentries, hfindings, List.countP_append, hindexing]

/-- **A script and its diagnostics report the same cycles.**  If no text that can reach the script
has a number sign, the script says as often that there is a cycle as there are errors, and each
error is about a cycle.  So a strict request is refused with the messages of the errors, of
which there are some, or answered with a script that says nothing of the kind; and a request that is
not strict is always answered. -/
theorem cycles_reported_alike {s : Snapshot} (hs : s.Valid)
    (htexts : ∀ text ∈ s.texts, '#' ∉ text.toList) :
    (∀ options : GeneratorOptions,
      cycleReports (s.generate options).script =
          ((s.generate options).diagnostics.filter Diagnostic.isError).length ∧
        ∀ d ∈ (s.generate options).diagnostics, d.isError → d.code = .cycle) ∧
    ∀ settings : Settings,
      let g := s.generate settings.generatorOptions
      (settings.render ⟨s, false⟩).outcome = .ok ⟨g.script, g.diagnostics, g.bindings⟩ ∧
        match (settings.render ⟨s, true⟩).outcome with
        | .error messages =>
          messages ≠ [] ∧
            messages = (g.diagnostics.filter Diagnostic.isError).map Diagnostic.message
        | .ok response =>
          response = ⟨g.script, g.diagnostics, g.bindings⟩ ∧ cycleReports response.script = 0 := by
  refine ⟨fun options => ⟨hs.cycleReports_generate htexts options, ?_⟩, ?_⟩
  · intro d hd herror
    obtain ⟨f, -, rfl⟩ := List.mem_map.mp hd
    exact Finding.code_of_level (beq_iff_eq.mp herror)
  · intro settings
    have hreports := hs.cycleReports_generate htexts settings.generatorOptions
    refine ⟨rfl, ?_⟩
    simp only [Settings.render, Bool.true_and]
    by_cases herrors : (s.generate settings.generatorOptions).hasErrors
    · rw [if_pos herrors]
      refine ⟨?_, rfl⟩
      obtain ⟨d, hd, herror⟩ := List.any_eq_true.mp herrors
      exact List.ne_nil_of_mem (List.mem_map_of_mem (List.mem_filter.mpr ⟨hd, herror⟩))
    · rw [if_neg herrors]
      refine ⟨rfl, ?_⟩
      have hnone : (s.generate settings.generatorOptions).diagnostics.filter
          Diagnostic.isError = [] := by
        rw [List.filter_eq_nil_iff]
        intro d hd herror
        exact herrors (List.any_eq_true.mpr ⟨d, hd, herror⟩)
      rw [hreports, hnone]
      rfl

/-- A function whose blocks lead to each other, the same in the first zone of a choice, and a
connection from a block that is not there. -/
def twoKnots : Snapshot where
  blocks := [
    { id := "work", container := some (.function "Invoke-Work" "rows" ["ping", "pong"]) },
    { id := "ping", command := "Send-Ping" },
    { id := "pong", command := "Send-Pong" },
    { id := "choice", container := some (.ifElse "$ready" ["left", "right"] ["last"]) },
    { id := "left", command := "Sort-Object" },
    { id := "right", command := "Select-Object" },
    { id := "last", scriptBody := "Write-Output 'done'" }]
  connections := [
    { source := "ping", target := "pong" },
    { source := "pong", target := "ping" },
    { source := "left", target := "right" },
    { source := "right", target := "left" },
    { source := "gone", target := "last" }]

theorem cycles_reported_alike_twoKnots :
    (twoKnots.generate {}).diagnostics.map Diagnostic.code =
        [.danglingConnection, .cycle, .cycle] ∧
      cycleReports (twoKnots.generate {}).script = 2 ∧
      (({} : Settings).render ⟨twoKnots, true⟩).outcome =
        .error ["Zone 'Body' of 'work' was not emitted: " ++
            "Cycle detected between blocks: ping -> pong -> ping",
          "Zone 'Then' of 'choice' was not emitted: " ++
            "Cycle detected between blocks: left -> right -> left"] := by
  have hvalid : twoKnots.Valid := by constructor <;> decide
  have htexts : ∀ text ∈ twoKnots.texts, '#' ∉ text.toList := by decide
  obtain ⟨hgenerate, hrender⟩ := cycles_reported_alike hvalid htexts
  have hreports : cycleReports (twoKnots.generate {}).script = 2 := by
    rw [(hgenerate {}).1]
    decide +kernel
  refine ⟨by decide +kernel, hreports, ?_⟩
  have hstrict := (hrender {}).2
  split at hstrict
  · rename_i messages hmessages
    rw [hmessages, hstrict.2]
    exact congrArg Except.error (by decide +kernel)
  · obtain ⟨rfl, hzero⟩ := hstrict
    exact absurd (hreports.symm.trans hzero) (by decide)

end BlockScript
