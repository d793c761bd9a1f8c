import BlockScript.Script.Entry
import Mathlib.Data.List.TakeWhile

/-!
# The text of a pipeline is never blank

A stage that has something to run is not blank, for its text is trimmed; what is piped in is not
blank either, unless it was given from outside; and a pipeline with neither is written as `$null`.
Cutting the text into lines loses only breaks, which are blank.

* `Text.exists_line_indent`: **a text that is not blank has a line that is not blank**, behind any
  pad.
* `Text.exists_indent_append`: what holds no break stands at the start of the first line.
* `Entry.exists_line_pipeline`: **every pipeline has a line that is not blank.**
-/

namespace BlockScript

namespace Text

theorem isBlankText_eq_false_iff {s : String} :
    isBlankText s = false ↔ ∃ c ∈ s.toList, isBlank c = false := by
  simp [isBlankText]

theorem isBlankText_append_left {s : String} (h : isBlankText s = false) (t : String) :
    isBlankText (s ++ t) = false := by
  simp only [isBlankText, String.toList_append, List.all_append] at h ⊢
  simp [h]

theorem isBlankText_append_right (s : String) {t : String} (h : isBlankText t = false) :
    isBlankText (s ++ t) = false := by
  simp only [isBlankText, String.toList_append, List.all_append] at h ⊢
  simp [h]

theorem isBlankText_intercalate (sep : String) {part : String} {parts : List String}
    (hpart : part ∈ parts) (h : isBlankText part = false) :
    isBlankText (sep.intercalate parts) = false := by
  induction parts with
  | nil => simp at hpart
  | cons first rest ih =>
    cases rest with
    | nil =>
      obtain rfl := List.mem_singleton.mp hpart
      simpa using h
    | cons second rest =>
      rw [String.intercalate_cons_cons, String.append_assoc]
      rcases List.mem_cons.mp hpart with rfl | hpart
      · exact isBlankText_append_left h _
      · exact isBlankText_append_right _ (isBlankText_append_right _ (ih hpart))

/-! ### Trimming -/

theorem mem_dropWhile_isBlank {cs : List Char} {c : Char} (hc : c ∈ cs) (h : isBlank c = false) :
    c ∈ cs.dropWhile isBlank := by
  rw [← List.takeWhile_append_dropWhile (p := isBlank) (l := cs)] at hc
  rcases List.mem_append.mp hc with hfront | hback
  · have hblank := List.mem_takeWhile_imp hfront
    rw [h] at hblank
    cases hblank
  · exact hback

theorem mem_trimChars_iff {c : Char} (hc : isBlank c = false) (cs : List Char) :
    c ∈ trimChars cs ↔ c ∈ cs := by
  constructor
  · intro h
    have hstart := (List.dropWhile_sublist _).subset (List.mem_reverse.mp h)
    exact (List.dropWhile_sublist _).subset (List.mem_reverse.mp hstart)
  · intro h
    have hstart := List.mem_reverse.mpr (mem_dropWhile_isBlank h hc)
    exact List.mem_reverse.mpr (mem_dropWhile_isBlank hstart hc)

/-- Trimming keeps what is not blank. -/
theorem isBlankText_trim {s : String} (h : isBlankText s = false) :
    isBlankText (trim s) = false := by
  obtain ⟨c, hc, hblank⟩ := isBlankText_eq_false_iff.mp h
  refine isBlankText_eq_false_iff.mpr ⟨c, ?_, hblank⟩
  rw [trim, String.toList_ofList]
  exact (mem_trimChars_iff hblank _).mpr hc

/-- Trimming leaves nothing of a blank text. -/
theorem trim_of_isBlankText {s : String} (h : isBlankText s) : trim s = "" := by
  have hnil : s.toList.dropWhile isBlank = [] := List.dropWhile_eq_nil_iff.mpr (by
    simpa [isBlankText] using h)
  simp [trim, trimChars, trimEndChars, hnil]

theorem isBlankText_trimOr {fallback : String} (hfallback : isBlankText fallback = false)
    (s : String) : isBlankText (trimOr fallback s) = false := by
  rw [trimOr]
  split
  · exact hfallback
  · rename_i h
    exact isBlankText_trim (by simpa using h)

/-! ### Lines -/

theorem isBlank_of_isBreak {c : Char} (h : isBreak c) : isBlank c := by
  simp only [isBreak, isBlank, Bool.or_eq_true, Bool.and_eq_true, decide_eq_true_eq,
    beq_iff_eq] at h ⊢
  omega

/-- A character that is no break is in one of the lines. -/
theorem exists_mem_splitLines {cs : List Char} {c : Char} (hc : c ∈ cs)
    (h : isBreak c = false) : ∃ line ∈ splitLines cs, c ∈ line := by
  fun_induction splitLines cs with
  | case1 => simp at hc
  | case2 rest ih =>
    have hrest : c ∈ rest := by
      rcases List.mem_cons.mp hc with rfl | hc
      · simp [isBreak] at h
      · rcases List.mem_cons.mp hc with rfl | hc
        · simp [isBreak] at h
        · exact hc
    obtain ⟨line, hline, hmem⟩ := ih hrest
    exact ⟨line, List.mem_cons_of_mem _ hline, hmem⟩
  | case3 d rest _ hbreak ih =>
    have hrest : c ∈ rest := by
      rcases List.mem_cons.mp hc with rfl | hc
      · rw [h] at hbreak
        cases hbreak
      · exact hc
    obtain ⟨line, hline, hmem⟩ := ih hrest
    exact ⟨line, List.mem_cons_of_mem _ hline, hmem⟩
  | case4 d rest _ _ hlines ih =>
    rcases List.mem_cons.mp hc with rfl | hrest
    · exact ⟨[c], by simp, by simp⟩
    · obtain ⟨line, hline, -⟩ := ih hrest
      simp [hlines] at hline
  | case5 d rest _ _ line lines hlines ih =>
    rcases List.mem_cons.mp hc with rfl | hrest
    · exact ⟨c :: line, by simp, by simp⟩
    · obtain ⟨line', hline, hmem⟩ := ih hrest
      rw [hlines] at hline
      rcases List.mem_cons.mp hline with rfl | hline
      · exact ⟨d :: line', by simp, List.mem_cons_of_mem _ hmem⟩
      · exact ⟨line', List.mem_cons_of_mem _ hline, hmem⟩

theorem splitLines_cons {c : Char} (h : isBreak c = false) (rest : List Char) :
    splitLines (c :: rest) = (c :: (splitLines rest).headD []) :: (splitLines rest).tail := by
  rw [splitLines]
  · rw [if_neg (by simp [h])]
    cases splitLines rest <;> rfl
  · rintro rest' rfl -
    simp [isBreak] at h

/-- What holds no break stands at the start of the first line. -/
theorem splitLines_append {front : List Char} (hne : front ≠ [])
    (h : ∀ c ∈ front, isBreak c = false) (rest : List Char) :
    ∃ line lines, splitLines (front ++ rest) = (front ++ line) :: lines := by
  induction front with
  | nil => exact absurd rfl hne
  | cons c front ih =>
    rw [List.cons_append, splitLines_cons (h c List.mem_cons_self)]
    cases front with
    | nil => exact ⟨_, _, rfl⟩
    | cons d front =>
      obtain ⟨line, lines, heq⟩ := ih (by simp) fun c hc => h c (List.mem_cons_of_mem _ hc)
      rw [heq]
      exact ⟨line, lines, rfl⟩

/-- A text whose start holds no break, and not only blanks, starts so behind its pad. -/
theorem exists_indent_append (pad : String) {front : String}
    (hbreak : ∀ c ∈ front.toList, isBreak c = false) (hblank : isBlankText front = false)
    (text : String) : ∃ rest tail, indent pad (front ++ text) = (pad ++ front ++ rest) :: tail := by
  have hne : front.toList ≠ [] := by
    intro hnil
    simp [isBlankText, hnil] at hblank
  obtain ⟨line, lines, hlines⟩ := splitLines_append hne hbreak text.toList
  refine ⟨String.ofList line, lines.map (padLine pad), ?_⟩
  have hall : (front.toList ++ line).all isBlank = false := by
    rw [isBlankText] at hblank
    rw [List.all_append, hblank, Bool.false_and]
  rw [indent, String.toList_append, hlines, List.map_cons, padLine, hall]
  simp [String.ofList_append, String.append_assoc]

/-- **A text that is not blank has a line that is not blank**, behind any pad. -/
theorem exists_line_indent (pad : String) {text : String} (h : isBlankText text = false) :
    ∃ line ∈ indent pad text, isBlankText line = false := by
  obtain ⟨c, hc, hblank⟩ := isBlankText_eq_false_iff.mp h
  have hbreak : isBreak c = false := by
    by_contra hne
    have := isBlank_of_isBreak (by simpa using hne)
    rw [hblank] at this
    cases this
  obtain ⟨line, hline, hmem⟩ := exists_mem_splitLines hc hbreak
  refine ⟨padLine pad line, List.mem_map_of_mem hline, ?_⟩
  have hline : line.all isBlank = false := List.all_eq_false.mpr ⟨c, hmem, by simp [hblank]⟩
  rw [padLine, hline]
  exact isBlankText_append_right _ (by simpa [isBlankText] using hline)

end Text

open Text

theorem Container.isBlankText_resolveFunctionName (name : String) :
    isBlankText (resolveFunctionName name) = false :=
  isBlankText_trimOr (by decide) name

/-- A stage that has something to run is not blank. -/
theorem Block.isBlankText_expression {b : Block} (h : b.expression ≠ "") :
    isBlankText b.expression = false := by
  rw [expression] at h ⊢
  cases hname : b.functionName? with
  | some name =>
    rw [functionName?] at hname
    split at hname
    · obtain rfl := Option.some.inj hname
      exact Container.isBlankText_resolveFunctionName _
    · cases hname
  | none =>
    simp only [hname] at h ⊢
    by_cases hcommand : isBlankText b.command
    · rw [if_pos hcommand] at h ⊢
      refine isBlankText_trim ?_
      by_contra hblank
      exact h (trim_of_isBlankText (by simpa using hblank))
    · rw [if_neg hcommand]
      exact isBlankText_intercalate _ List.mem_cons_self
        (isBlankText_trim (by simpa using hcommand))

/-- What is piped in, if anything, is not blank. -/
def Source.NotBlank (source : Option Source) : Prop :=
  ∀ piped ∈ source, isBlankText piped.text = false

/-- Only what is given from outside can be blank. -/
theorem Source.notBlank_of_ne_given {source : Option Source}
    (h : ∀ text, source ≠ some (.given text)) : NotBlank source := by
  rintro (⟨producer, name⟩ | - | name | text) hpiped
  · exact isBlankText_append_left (by decide) name
  · decide
  · exact isBlankText_append_left (by decide) name
  · exact absurd hpiped (h text)

namespace Entry

theorem isBlankText_pipelineText {source : Option Source} (hsource : Source.NotBlank source)
    (stages : List Block) :
    isBlankText (pipelineText source stages) = false := by
  have hparts : ∀ part ∈ segments source stages, isBlankText part = false := by
    intro part hpart
    rcases List.mem_append.mp hpart with hpart | hpart
    · rw [Source.reference?, Option.mem_toList, Option.filter_eq_some_iff] at hpart
      obtain ⟨piped, hpiped, rfl⟩ := Option.map_eq_some_iff.mp hpart.1
      exact hsource piped hpiped
    · simp only [List.mem_filter, List.mem_map, decide_eq_true_eq] at hpart
      obtain ⟨⟨b, -, rfl⟩, hne⟩ := hpart
      exact Block.isBlankText_expression hne
  rw [pipelineText]
  split
  · decide
  · rename_i hne
    obtain ⟨part, hpart⟩ := List.exists_mem_of_ne_nil _ hne
    exact isBlankText_intercalate _ hpart (hparts part hpart)

/-- **Every pipeline has a line that is not blank.** -/
theorem exists_line_pipeline (size level : Int) (target : Option String) {source : Option Source}
    (hsource : Source.NotBlank source) (stages : List Block) :
    ∃ line ∈ (pipeline level target source stages).lines size, isBlankText line = false :=
  exists_line_indent _ (isBlankText_append_right _ (isBlankText_pipelineText hsource stages))

end Entry

end BlockScript
