import BlockScript.Proofs.TextMarks
import Mathlib.Data.List.Infix

/-!
# A script never unbalances braces

`Text.Balanced` says that no part of a text from its start closes more braces than it opens, and
that the whole text closes all of them.  Only the braces of a text count for it
(`Text.balanced_marks_iff`), balanced texts one after the other are balanced, and so is a balanced
text in braces.  An opening ends in a brace, its closing is one, and both stand around the entries
of one part; so by induction on `Layout.Composed` the entries of a script are balanced if the texts
of the blocks are (`Layout.Composed.balanced`).
-/

namespace BlockScript

namespace Text

/-- Every brace that is opened is closed, and none is closed before. -/
structure Balanced (cs : List Char) : Prop where
  closed_le : ∀ front, front <+: cs → front.count '\x7d' ≤ front.count '\x7b'
  count_eq : cs.count '\x7d' = cs.count '\x7b'

instance (cs : List Char) : Decidable (Balanced cs) :=
  decidable_of_iff ((∀ front ∈ cs.inits, front.count '\x7d' ≤ front.count '\x7b') ∧
      cs.count '\x7d' = cs.count '\x7b')
    ⟨fun h => ⟨fun front hfront => h.1 front ((List.mem_inits _ _).mpr hfront), h.2⟩,
      fun h => ⟨fun front hfront => h.closed_le front ((List.mem_inits _ _).mp hfront),
        h.count_eq⟩⟩

theorem balanced_of_not_mem {cs : List Char} (hopen : '\x7b' ∉ cs) (hclose : '\x7d' ∉ cs) :
    Balanced cs where
  closed_le := by
    intro front hfront
    rw [List.count_eq_zero_of_not_mem fun hmem => hclose (hfront.subset hmem)]
    exact Nat.zero_le _
  count_eq := by
    rw [List.count_eq_zero_of_not_mem hopen, List.count_eq_zero_of_not_mem hclose]

theorem Balanced.append {a b : List Char} (ha : Balanced a) (hb : Balanced b) :
    Balanced (a ++ b) where
  closed_le := by
    intro front hfront
    rcases List.prefix_or_prefix_of_prefix hfront (List.prefix_append a b) with h | ⟨rest, rfl⟩
    · exact ha.closed_le front h
    · have hrest := hb.closed_le rest ((List.prefix_append_right_inj a).mp hfront)
      have hcount := ha.count_eq
      rw [List.count_append, List.count_append]
      omega
  count_eq := by
    rw [List.count_append, List.count_append, ha.count_eq, hb.count_eq]

theorem Balanced.braces {a : List Char} (ha : Balanced a) :
    Balanced ('\x7b' :: a ++ ['\x7d']) where
  closed_le := by
    intro front hfront
    rcases List.prefix_concat_iff.mp hfront with rfl | hfront
    · simp [ha.count_eq]
    · rcases List.prefix_cons_iff.mp hfront with rfl | ⟨rest, rfl, hrest⟩
      · exact Nat.le_refl _
      · have hle := ha.closed_le rest hrest
        simp only [List.count_cons]
        simpa using Nat.le_succ_of_le hle
  count_eq := by simp [ha.count_eq]

theorem composable_balanced : Composable Balanced where
  nil := balanced_of_not_mem (by simp) (by simp)
  append := .append
  braces := .braces

/-- Only the marks of a text count. -/
theorem balanced_marks_iff {cs : List Char} : Balanced (marks cs) ↔ Balanced cs := by
  have hclose : ∀ l : List Char, (marks l).count '\x7d' = l.count '\x7d' := fun l =>
    List.count_filter rfl
  have hopen : ∀ l : List Char, (marks l).count '\x7b' = l.count '\x7b' := fun l =>
    List.count_filter rfl
  constructor
  · intro h
    refine ⟨fun front hfront => ?_, by rw [← hclose, ← hopen, h.count_eq]⟩
    rw [← hclose, ← hopen]
    exact h.closed_le _ (hfront.filter isMark)
  · intro h
    refine ⟨fun front hfront => ?_, by rw [hclose, hopen, h.count_eq]⟩
    obtain ⟨whole, hwhole, rfl⟩ := List.prefix_filter_iff.mp hfront
    rw [← marks, hclose, hopen]
    exact h.closed_le whole hwhole

end Text

open Text

/-- **The entries of a script are balanced if the texts of the blocks are.** -/
theorem Layout.Composed.balanced {g : Index} {t : Table} (ht : t.Shaped)
    (htexts : ∀ b ∈ g.blocks, ∀ text ∈ b.texts, Balanced (marks text.toList)) (size : Int)
    {part : Layout} (h : Composed g t true part) :
    Balanced (part.entries.flatMap (Entry.lineMarks size)) := by
  have hcomment : ∀ {l : List Char}, l ⊆ ['#'] → Balanced l := fun hl =>
    balanced_of_not_mem (fun hmem => absurd (hl hmem) (by decide))
      (fun hmem => absurd (hl hmem) (by decide))
  induction h with
  | nothing => exact composable_balanced.nil
  | append a b _ _ iha ihb =>
    rw [List.flatMap_append]
    exact iha.append ihb
  | warning => exact composable_balanced.nil
  | filler e filler =>
    rw [List.flatMap_singleton]
    exact hcomment (filler.lineMarks_subset size)
  | pipeline P order ordered c mem level source provided =>
    rw [List.flatMap_singleton]
    exact Entry.lineMarks_pipeline composable_balanced ht htexts provided _ size level _
  | framed level owner target source what opens inner _ ih =>
    obtain ⟨front, hmarks, hfront⟩ := opens.marks_text composable_balanced ht htexts
    rw [List.cons_append, List.flatMap_cons, List.flatMap_append, List.flatMap_singleton,
      Entry.lineMarks_opening, Entry.lineMarks_closing, hmarks, List.append_assoc]
    exact hfront.append ih.braces
  | broken level place cycle =>
    rw [List.flatMap_singleton, Entry.lineMarks_brokenZone]
    exact hcomment (List.Subset.refl _)

theorem Plan.marks_join (lines : List String) :
    marks (join lines).toList = lines.flatMap (marks ·.toList) := by
  have hbreak : marks "\n".toList = [] := by decide
  rw [join, String.toList_append, marks_append, hbreak, List.append_nil, trimEnd,
    String.toList_ofList, marks_trimEndChars, marks_intercalate hbreak]

/-- **A script never unbalances braces**: if every text that can reach the script is balanced by
itself, the script is balanced. -/
theorem braces_balanced {s : Snapshot} (hs : s.Valid)
    (htexts : ∀ text ∈ s.texts, Balanced text.toList) (options : GeneratorOptions) :
    Balanced (s.generate options).script.toList := by
  rcases hs.composed_generate options with ⟨cycle, hscript, -⟩ | ⟨part, hpart, hscript, -⟩
  · rw [hscript]
    exact balanced_of_not_mem (by decide) (by decide)
  · have hblocks : ∀ b ∈ s.index.blocks, ∀ text ∈ b.texts, Balanced (marks text.toList) :=
      fun b hb text htext => balanced_marks_iff.mpr
        (htexts text (List.mem_flatMap.mpr ⟨b, hb, htext⟩))
    have hbody := hpart.balanced (hs.shaped_plan options.suffixLength) hblocks options.indentSize
    have hheader : Balanced (((if options.includeHeader then Plan.header else []).flatMap
        (Entry.lines options.indentSize)).flatMap (marks ·.toList)) := by
      split
      · rw [Plan.lines_header]
        exact balanced_of_not_mem (by decide) (by decide)
      · exact composable_balanced.nil
    rw [hscript, ← balanced_marks_iff, Plan.marks_join, Plan.lines, List.flatMap_append,
      List.flatMap_append, List.flatMap_assoc (l := part.entries)]
    exact hheader.append hbody

/-- Braces in every kind of text: a value that loses its balance item by item, a condition, a body
of a block; around a zone with a cycle and one without blocks. -/
def braced : Snapshot where
  blocks := [
    { id := "rows", command := "Get-Rows", outputVariable := "rows", parameters := [
      { name := "Fields", type := .stringArray, value := "\x7bid, name\x7d" },
      { name := "Where", type := .scriptBlock, value := "$_.Tags -contains @\x7ba=1\x7d.a" }] },
    { id := "choice", container := some (.ifElse "& \x7b $true \x7d" ["left", "right"] []) },
    { id := "left", command := "Sort-Object" },
    { id := "right", command := "Select-Object" },
    { id := "loop", container := some (.forEach []) },
    { id := "last", scriptBody := "% \x7b\n  $_\n\x7d" }]
  connections := [
    { source := "rows", target := "choice" },
    { source := "rows", target := "last" },
    { source := "left", target := "right" },
    { source := "right", target := "left" },
    { source := "gone", target := "last" }]

theorem braces_balanced_braced :
    ¬Balanced "\x7bid".toList ∧ (∀ text ∈ braced.texts, Balanced text.toList) ∧
      (braced.generate {}).diagnostics.map Diagnostic.code = [.danglingConnection, .cycle] ∧
      Balanced (braced.generate {}).script.toList := by
  have hvalid : braced.Valid := by constructor <;> decide
  have htexts : ∀ text ∈ braced.texts, Balanced text.toList := by decide +kernel
  exact ⟨by decide, htexts, by decide +kernel, braces_balanced hvalid htexts {}⟩

end BlockScript
