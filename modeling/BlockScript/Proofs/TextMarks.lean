import BlockScript.Proofs.NewNames
import BlockScript.Proofs.PipelineText
import BlockScript.Proofs.ScriptParts
import Mathlib.Data.List.DropRight

/-!
# Number signs and braces

A number sign starts a comment, braces open and close a block: these are the *marks* of a text.  A
script trims the texts of its blocks, cuts them into lines and items, quotes them and joins them,
and none of this loses, adds or moves a mark; a brace is added only together with its partner.
So a property of marks that is kept by joining and by braces around (`Text.Composable`) passes
from the texts of the blocks to what a script makes of them.

* `Snapshot.texts`: the texts of a snapshot that can reach its script.
* `Block.marks_expression`, `Entry.lineMarks_pipeline`: **a pipeline has the property if the texts
  of its stages have it.**
* `Layout.Opens.marks_text`: **what stands before the brace of an opening has it too.**
-/

namespace BlockScript

open Emit

namespace Text

/-- The characters that open, close or comment out a piece of a script. -/
def isMark (c : Char) : Bool := c == '#' || c == '\x7b' || c == '\x7d'

/-- The marks of a text, in order. -/
def marks (cs : List Char) : List Char := cs.filter isMark

@[simp] theorem marks_nil : marks [] = [] := rfl

@[simp] theorem marks_append (cs ds : List Char) : marks (cs ++ ds) = marks cs ++ marks ds :=
  List.filter_append ..

theorem marks_eq_nil {cs : List Char} (h : ∀ c ∈ cs, isMark c = false) : marks cs = [] :=
  List.filter_eq_nil_iff.mpr fun c hc => by simp [h c hc]

/-- A property of marks that texts one after the other have if each has it, and a text in braces if
the text has it. -/
structure Composable (φ : List Char → Prop) : Prop where
  nil : φ []
  append : ∀ {a b : List Char}, φ a → φ b → φ (a ++ b)
  braces : ∀ {a : List Char}, φ a → φ ('\x7b' :: a ++ ['\x7d'])

theorem Composable.flatMap {φ : List Char → Prop} (h : Composable φ) {α : Type} {l : List α}
    {f : α → List Char} (hl : ∀ a ∈ l, φ (f a)) : φ (l.flatMap f) := by
  induction l with
  | nil => exact h.nil
  | cons a l ih =>
    rw [List.flatMap_cons]
    exact h.append (hl a List.mem_cons_self) (ih fun a ha => hl a (List.mem_cons_of_mem _ ha))

/-! ### Trimming -/

theorem isMark_of_isBlank {c : Char} (h : isBlank c) : isMark c = false := by
  by_contra hmark
  simp only [isMark, Bool.not_eq_false, Bool.or_eq_true, beq_iff_eq] at hmark
  rcases hmark with (rfl | rfl) | rfl <;> revert h <;> decide

theorem marks_of_isBlank {cs : List Char} (h : ∀ c ∈ cs, isBlank c) : marks cs = [] :=
  marks_eq_nil fun c hc => isMark_of_isBlank (h c hc)

theorem marks_dropWhile (cs : List Char) : marks (cs.dropWhile isBlank) = marks cs := by
  have hfront : marks (cs.takeWhile isBlank) = [] :=
    marks_of_isBlank fun c hc => List.mem_takeWhile_imp hc
  conv_rhs => rw [← List.takeWhile_append_dropWhile (p := isBlank) (l := cs), marks_append, hfront]
  rfl

/-- What trimming takes from the end is blank. -/
theorem exists_trimEndChars (cs : List Char) :
    ∃ tail, (∀ c ∈ tail, isBlank c) ∧ cs = trimEndChars cs ++ tail :=
  ⟨cs.rtakeWhile isBlank, fun _ hc => List.mem_rtakeWhile_imp hc,
    (List.rdropWhile_append_rtakeWhile ..).symm⟩

theorem marks_trimEndChars (cs : List Char) : marks (trimEndChars cs) = marks cs := by
  obtain ⟨tail, htail, heq⟩ := exists_trimEndChars cs
  conv_rhs => rw [heq, marks_append, marks_of_isBlank htail, List.append_nil]

theorem marks_trimChars (cs : List Char) : marks (trimChars cs) = marks cs := by
  rw [trimChars, marks_trimEndChars, marks_dropWhile]

@[simp] theorem marks_trim (s : String) : marks (trim s).toList = marks s.toList := by
  rw [trim, String.toList_ofList, marks_trimChars]

theorem marks_trimOr {φ : List Char → Prop} {fallback s : String}
    (hfallback : φ (marks fallback.toList)) (hs : φ (marks s.toList)) :
    φ (marks (trimOr fallback s).toList) := by
  rw [trimOr]
  split
  · exact hfallback
  · rwa [marks_trim]

/-! ### Joining and cutting -/

theorem marks_intercalate {sep : String} (hsep : marks sep.toList = []) (parts : List String) :
    marks (sep.intercalate parts).toList = parts.flatMap (marks ·.toList) := by
  induction parts with
  | nil => rfl
  | cons first rest ih =>
    cases rest with
    | nil => simp
    | cons second rest =>
      rw [String.intercalate_cons_cons, String.toList_append, String.toList_append, marks_append,
        marks_append, hsep, List.append_nil, ih]
      rfl

theorem marks_cons_of_isMark {c : Char} (h : isMark c = false) (cs : List Char) :
    marks (c :: cs) = marks cs := by
  simp [marks, h]

theorem flatMap_marks_splitOn {mark : Char} (hmark : isMark mark = false) (cs : List Char) :
    (cs.splitOn mark).flatMap marks = marks cs := by
  induction cs with
  | nil => rfl
  | cons c rest ih =>
    rw [List.splitOn_cons_eq_if_modifyHead]
    by_cases hc : c = mark
    · simpa [hc, marks_cons_of_isMark hmark] using ih
    · obtain ⟨field, fields, hsplit⟩ := List.exists_cons_of_ne_nil (List.splitOn_ne_nil mark rest)
      rw [hsplit, List.flatMap_cons] at ih
      simp only [hsplit, beq_iff_eq, hc, if_false, List.modifyHead_cons, List.flatMap_cons]
      rw [← List.singleton_append (l := rest), marks_append, ← ih, ← List.append_assoc,
        ← marks_append, List.singleton_append]

theorem flatMap_marks_splitLines (cs : List Char) : (splitLines cs).flatMap marks = marks cs := by
  have hbreak : ∀ {c : Char}, isBreak c → isMark c = false := fun h =>
    isMark_of_isBlank (isBlank_of_isBreak h)
  fun_induction splitLines cs with
  | case1 => rfl
  | case2 rest ih =>
    rw [marks_cons_of_isMark (hbreak rfl), marks_cons_of_isMark (hbreak rfl)]
    simpa using ih
  | case3 c rest _ hc ih => simpa [marks_cons_of_isMark (hbreak hc)] using ih
  | case4 c rest _ _ hlines ih =>
    rw [hlines] at ih
    rw [← List.singleton_append (l := rest), marks_append, ← ih]
    simp
  | case5 c rest _ _ line lines hlines ih =>
    rw [hlines] at ih
    simp only [List.flatMap_cons] at ih ⊢
    rw [← List.singleton_append (l := rest), marks_append, ← ih, ← List.append_assoc,
      ← marks_append, List.singleton_append]

theorem marks_padLine {pad : String} (hpad : marks pad.toList = []) (line : List Char) :
    marks (padLine pad line).toList = marks line := by
  rw [padLine]
  split
  · rename_i hblank
    rw [marks_of_isBlank (List.all_eq_true.mp hblank)]
    rfl
  · rw [String.toList_append, marks_append, hpad, String.toList_ofList, List.nil_append]

/-- Cutting a text into lines and indenting them keeps its marks. -/
theorem flatMap_marks_indent {pad : String} (hpad : marks pad.toList = []) (text : String) :
    (indent pad text).flatMap (marks ·.toList) = marks text.toList := by
  rw [indent, List.flatMap_map, ← flatMap_marks_splitLines]
  exact List.flatMap_congr fun line _ => marks_padLine hpad line

theorem marks_spaces (n : Int) : marks (spaces n).toList = [] := by
  refine marks_eq_nil fun c hc => ?_
  rw [spaces, String.toList_ofList] at hc
  rw [List.eq_of_mem_replicate hc]
  rfl

theorem marks_padded (size level : Int) (text : String) :
    marks (Entry.pad size level ++ text).toList = marks text.toList := by
  rw [String.toList_append, marks_append, Entry.pad, marks_spaces, List.nil_append]

end Text

open Text

/-! ### Names -/

theorem isMark_of_isAlphanum {c : Char} (h : c.isAlphanum) : isMark c = false := by
  by_contra hmark
  simp only [isMark, Bool.not_eq_false, Bool.or_eq_true, beq_iff_eq] at hmark
  rcases hmark with (rfl | rfl) | rfl <;> revert h <;> decide

theorem Naming.IsName.marks_eq_nil {l : List Char} (h : IsName l) : marks l = [] := by
  refine Text.marks_eq_nil fun c hc => ?_
  rcases h.isAlphanum_or_eq hc with hchar | rfl
  · exact isMark_of_isAlphanum hchar
  · rfl

/-- The names of a table have the shape of names. -/
def Table.Shaped (t : Table) : Prop :=
  ∀ id name, t.nameOf id = some name → Naming.IsName name.toList

/-- The names of a generation have the shape of names. -/
theorem Snapshot.Valid.shaped_plan {s : Snapshot} (hs : s.Valid) (suffixLength : Int) :
    (s.plan suffixLength).pass.table.Shaped := by
  intro id name hname
  cases ho : orders s.index with
  | error cycle =>
    rw [(plan_of_cycle suffixLength ho).2.1] at hname
    cases hname
  | ok o =>
    obtain ⟨functions, main⟩ := o
    rw [(plan_of_orders hs suffixLength ho).1] at hname
    exact (s.index.fresh_namesAfter _ _).shape _ (Binding.mem_of_nameIn hname)

theorem Table.Shaped.marks_assignment {t : Table} (h : t.Shaped) (id : BlockId) :
    marks (Entry.assignment (t.nameOf id)).toList = [] := by
  cases hname : t.nameOf id with
  | none => rfl
  | some name =>
    rw [Entry.assignment, String.toList_append, String.toList_append, marks_append, marks_append,
      (h id name hname).marks_eq_nil]
    decide

/-- What is piped into a statement of a script has no marks. -/
theorem Source.Provided.marks_reference {t : Table} (ht : t.Shaped) {source : Option Source}
    (h : Provided t source) {reference : String} (href : reference? source = some reference) :
    marks reference.toList = [] := by
  have hname : ∀ {name : String}, Naming.IsName name.toList → marks ("$" ++ name).toList = [] := by
    intro name hname
    rw [String.toList_append, marks_append, hname.marks_eq_nil]
    decide
  rw [reference?, Option.filter_eq_some_iff, Option.map_eq_some_iff] at href
  obtain ⟨⟨piped, rfl, rfl⟩, -⟩ := href
  cases h with
  | item => decide
  | parameter text => exact hname (Naming.isName_identifier text)
  | named producer name name_eq => exact hname (ht producer name name_eq)

/-! ### The frame of a script -/

namespace Entry

/-- The marks of the lines of an entry. -/
def lineMarks (size : Int) (e : Entry) : List Char := (e.lines size).flatMap (marks ·.toList)

theorem lineMarks_opening (size level : Int) (owner : BlockId) (target : Option String)
    (source : Option Source) (what : Opening) :
    (opening level owner target source what).lineMarks size =
      marks (assignment target ++ what.text source).toList := by
  rw [lineMarks, lines, List.flatMap_singleton, String.append_assoc, marks_padded]

theorem lineMarks_closing (size level : Int) (owner : BlockId) :
    (closing level owner).lineMarks size = ['\x7d'] := by
  rw [lineMarks, lines, List.flatMap_singleton, marks_padded]
  decide

theorem lineMarks_brokenZone (size level : Int) (place : Place) :
    (brokenZone level place).lineMarks size = ['#'] := by
  have hbefore : marks "# ERROR: Cycle detected in zone '".toList = ['#'] := by decide
  have hname : marks place.zone.name.toList = [] := by cases place.zone <;> decide
  have hafter : marks "'!".toList = [] := by decide
  rw [lineMarks, lines, List.flatMap_singleton, String.append_assoc, String.append_assoc,
    marks_padded, String.toList_append, String.toList_append, marks_append, marks_append, hbefore,
    hname, hafter]
  rfl

theorem lineMarks_parameters (size level : Int) (text : String) :
    (parameters level (Naming.identifier text)).lineMarks size = [] := by
  have hparam : marks "param(".toList = [] := by decide
  have hpipe : marks "[Parameter(ValueFromPipeline)]".toList = [] := by decide
  have hname : marks ("$" ++ Naming.identifier text).toList = [] := by
    rw [String.toList_append, marks_append, (Naming.isName_identifier text).marks_eq_nil]
    decide
  have hclose : marks ")".toList = [] := by decide
  simp only [lineMarks, lines, List.flatMap_cons, List.flatMap_nil, String.append_assoc,
    marks_padded, hparam, hpipe, hname, hclose, List.append_nil]

/-- A filler has no braces. -/
theorem Filler.lineMarks_subset {whole : Bool} {e : Entry} (h : e.Filler whole) (size : Int) :
    e.lineMarks size ⊆ ['#'] := by
  cases h with
  | blank => simp [lineMarks, lines]
  | emptyZone _ level place =>
    rw [lineMarks, lines, List.flatMap_singleton, marks_padded]
    decide
  | parameters _ level text =>
    rw [lineMarks_parameters]
    exact List.nil_subset _
  | functionsBanner =>
    rw [lineMarks, lines, List.flatMap_singleton]
    decide
  | executionBanner =>
    rw [lineMarks, lines, List.flatMap_singleton]
    decide

end Entry

/-! ### The texts of blocks -/

/-- The text of a container that can reach a script. -/
def Container.texts : Container → List String
  | .ifElse condition _ _ => [condition]
  | .whileLoop condition _ => [condition]
  | .function name _ _ => [name]
  | _ => []

def Parameter.texts (p : Parameter) : List String := [p.name, p.value, p.defaultValue]

def Block.texts (b : Block) : List String :=
  [b.command, b.scriptBody] ++ b.container.toList.flatMap Container.texts ++
    b.parameters.flatMap Parameter.texts

/-- The texts of an opening. -/
def Opening.texts : Opening → List String
  | .ifBranch condition => [condition]
  | .whileLoop condition => [condition]
  | .function name => [name]
  | _ => []

/-- The texts of a snapshot that can reach its script as they are given. -/
def Snapshot.texts (s : Snapshot) : List String := s.blocks.flatMap Block.texts

section

variable {φ : List Char → Prop} (hφ : Composable φ)

include hφ

theorem Composable.intercalate {sep : String} (hsep : marks sep.toList = []) {parts : List String}
    (hparts : ∀ part ∈ parts, φ (marks part.toList)) :
    φ (marks (sep.intercalate parts).toList) := by
  rw [marks_intercalate hsep]
  exact hφ.flatMap hparts

namespace Parameter

omit hφ in
theorem marks_escapeQuotes (s : String) : marks (escapeQuotes s).toList = marks s.toList := by
  rw [escapeQuotes, String.toList_ofList]
  induction s.toList with
  | nil => rfl
  | cons c cs ih =>
    have hc : marks (if c = '"' then ['\x60', '"'] else [c]) = marks [c] := by
      split
      · rename_i hquote
        rw [hquote]
        decide
      · rfl
    rw [List.flatMap_cons, marks_append, hc, ih, ← marks_append, List.singleton_append]

omit hφ in
theorem marks_quoted (s : String) : marks (quoted s).toList = marks s.toList := by
  have hquote : marks "\"".toList = [] := by decide
  rw [quoted, String.toList_append, String.toList_append, marks_append, marks_append, hquote,
    List.nil_append, List.append_nil]

omit hφ in
/-- The items of a value have its marks. -/
theorem flatMap_marks_items (value : String) :
    (items value).flatMap (marks ·.toList) = marks value.toList := by
  rw [items, List.flatMap_map, ← flatMap_marks_splitOn (show isMark ',' = false from rfl)]
  exact List.flatMap_congr fun item _ => by rw [String.toList_ofList, marks_trimChars]

/-- The argument that a parameter becomes: only a script block gets braces around it. -/
theorem marks_argumentFor {p : Parameter} (hname : φ (marks p.name.toList)) {value : String}
    (hvalue : φ (marks value.toList)) {argument : String}
    (h : p.argumentFor value = some argument) : φ (marks argument.toList) := by
  have hflag : φ (marks ("-" ++ p.name).toList) := by
    rw [String.toList_append, marks_append]
    exact hφ.append hφ.nil hname
  have hafter : ∀ {text : String}, φ (marks text.toList) →
      φ (marks ("-" ++ p.name ++ " " ++ text).toList) := by
    intro text htext
    have hspace : marks " ".toList = [] := by decide
    rw [String.toList_append, String.toList_append, marks_append, marks_append, hspace,
      List.append_nil]
    exact hφ.append hflag htext
  simp only [argumentFor] at h
  cases htype : p.type with
  | string | path =>
    rw [htype, Option.some.injEq] at h
    exact h ▸ hafter (by rwa [marks_quoted, marks_escapeQuotes])
  | int =>
    rw [htype, Option.some.injEq] at h
    exact h ▸ hafter hvalue
  | bool =>
    simp only [htype] at h
    split at h
    · rw [Option.some.injEq] at h
      exact h ▸ hflag
    · cases h
  | stringArray =>
    rw [htype, Option.some.injEq] at h
    have hitems : marks (", ".intercalate ((items value).map quoted)).toList =
        marks value.toList := by
      rw [marks_intercalate (by decide), List.flatMap_map, ← flatMap_marks_items]
      exact List.flatMap_congr fun item _ => marks_quoted item
    have hopen : marks " @(".toList = [] := by decide
    have hclose : marks ")".toList = [] := by decide
    rw [← h, String.toList_append, String.toList_append, String.toList_append, marks_append,
      marks_append, marks_append, hitems, hopen, hclose, List.append_nil, List.append_nil]
    exact hφ.append hflag hvalue
  | scriptBlock =>
    rw [htype, Option.some.injEq] at h
    have hopen : marks " \x7b ".toList = ['\x7b'] := by decide
    have hclose : marks " \x7d".toList = ['\x7d'] := by decide
    rw [← h, String.toList_append, String.toList_append, String.toList_append, marks_append,
      marks_append, marks_append, hopen, hclose, List.append_assoc, List.append_assoc]
    exact hφ.append hflag (hφ.braces hvalue)
  | credential | choice =>
    rw [htype, Option.some.injEq] at h
    exact h ▸ hafter (by rwa [marks_quoted])

theorem marks_argument {p : Parameter} (htexts : ∀ text ∈ p.texts, φ (marks text.toList))
    {argument : String} (h : p.argument? = some argument) : φ (marks argument.toList) := by
  have hvalue : φ (marks p.effectiveValue.toList) := by
    rw [effectiveValue, marks_trim]
    split
    · exact htexts _ (by simp [texts])
    · exact htexts _ (by simp [texts])
  rw [argument?] at h
  split at h
  · cases h
  · exact marks_argumentFor hφ (htexts _ (by simp [texts])) hvalue h

end Parameter

/-- **The stage of a block has the property if the texts of the block have it.** -/
theorem Block.marks_expression {b : Block} (htexts : ∀ text ∈ b.texts, φ (marks text.toList)) :
    φ (marks b.expression.toList) := by
  rw [expression]
  cases hname : b.functionName? with
  | some name =>
    rw [functionName?] at hname
    split at hname
    · rename_i given inputParam children hc
      obtain rfl := Option.some.inj hname
      exact marks_trimOr (by exact hφ.nil) (htexts given (by simp [texts, hc, Container.texts]))
    · cases hname
  | none =>
    simp only
    split
    · rw [marks_trim]
      exact htexts _ (by simp [texts])
    · refine Composable.intercalate hφ (by decide) fun part hpart => ?_
      rcases List.mem_cons.mp hpart with rfl | hpart
      · rw [marks_trim]
        exact htexts _ (by simp [texts])
      · obtain ⟨p, hp, hargument⟩ := List.mem_filterMap.mp hpart
        refine Parameter.marks_argument hφ (fun text htext => htexts text ?_) hargument
        exact List.mem_append_right _ (List.mem_flatMap.mpr ⟨p, hp, htext⟩)

/-! ### Entries -/

variable {g : Index} {t : Table} (ht : t.Shaped)
  (htexts : ∀ b ∈ g.blocks, ∀ text ∈ b.texts, φ (marks text.toList))

include ht htexts

/-- **A pipeline has the property if the texts of the blocks have it.** -/
theorem Entry.lineMarks_pipeline {source : Option Source} (hsource : Source.Provided t source)
    (ids : List BlockId) (size level : Int) (id : BlockId) :
    φ ((pipeline level (t.nameOf id) source (ids.filterMap g.block?)).lineMarks size) := by
  rw [lineMarks, lines, pad, flatMap_marks_indent (marks_spaces _), String.toList_append,
    marks_append, ht.marks_assignment, List.nil_append, pipelineText]
  split
  · exact hφ.nil
  · refine Composable.intercalate hφ (by decide) fun part hpart => ?_
    rcases List.mem_append.mp hpart with hpart | hpart
    · rw [hsource.marks_reference ht (Option.mem_toList.mp hpart)]
      exact hφ.nil
    · simp only [List.mem_filter, List.mem_map] at hpart
      obtain ⟨⟨b, hb, rfl⟩, -⟩ := hpart
      obtain ⟨_, -, hblock⟩ := List.mem_filterMap.mp hb
      exact Block.marks_expression hφ (htexts b (Index.mem_of_block? hblock).1)

/-! ### Openings -/

omit hφ ht htexts in
/-- A branch has the target and the source of its container or none, and its condition is one that
the block gives. -/
theorem Emit.origin_of_mem_branches {block : Block} {target : Option String}
    {source : Option Source} {b : Branch} (hb : b ∈ branches g block target source) :
    (b.target = target ∨ b.target = none) ∧ (b.source = source ∨ b.source = none) ∧
      ∀ text ∈ b.what.texts, ∃ given ∈ block.texts, text = Container.resolveCondition given := by
  revert b
  cases branchList g block with
  | nothing _ hbranches => simp [hbranches]
  | thenOnly condition _ _ hc _ hbranches | thenElse condition _ _ hc hbranches
  | whileLoop condition _ hc hbranches =>
    have hgiven : condition ∈ block.texts := by simp [Block.texts, hc, Container.texts]
    simpa [hbranches, Opening.texts] using ⟨condition, hgiven, rfl⟩
  | forEach _ _ hbranches | tryCatch _ _ _ hbranches => simp [hbranches, Opening.texts]

omit htexts in
/-- An opening ends in its brace, and what stands before it has the property if its texts have
it. -/
theorem Opening.marks_text {source : Option Source} (hsource : Source.Provided t source)
    {what : Opening} (hwhat : ∀ text ∈ what.texts, φ (marks text.toList)) :
    ∃ front, marks (what.text source).toList = front ++ ['\x7b'] ∧ φ front := by
  have hframe : ∀ {before after condition : String}, marks before.toList = [] →
      marks after.toList = ['\x7b'] → marks (before ++ condition ++ after).toList =
        marks condition.toList ++ ['\x7b'] := by
    intro before after condition hbefore hafter
    rw [String.toList_append, String.toList_append, marks_append, marks_append, hbefore, hafter,
      List.nil_append]
  cases what with
  | ifBranch condition =>
    exact ⟨_, hframe (by decide) (by decide), hwhat condition (by simp [texts])⟩
  | whileLoop condition =>
    exact ⟨_, hframe (by decide) (by decide), hwhat condition (by simp [texts])⟩
  | function name => exact ⟨_, hframe (by decide) (by decide), hwhat name (by simp [texts])⟩
  | forEach =>
    refine ⟨[], ?_, hφ.nil⟩
    rw [text]
    split
    · rename_i reference href
      rw [String.toList_append, marks_append, hsource.marks_reference ht href]
      decide
    · decide
  | _ => exact ⟨[], by rw [text]; decide, hφ.nil⟩

/-- **What stands before the brace of an opening has the property** if the texts of the blocks
have it. -/
theorem Layout.Opens.marks_text {owner : BlockId} {whole : Bool} {target : Option String}
    {source : Option Source} {what : Opening} (h : Opens g t owner whole target source what) :
    ∃ front, marks (Entry.assignment target ++ what.text source).toList = front ++ ['\x7b'] ∧
      φ front := by
  cases h with
  | branch _ block block_eq source provided b mem =>
    obtain ⟨htarget, hsource, hconditions⟩ := Emit.origin_of_mem_branches mem
    have hprovided : Source.Provided t b.source := by
      rcases hsource with hsource | hsource <;> rw [hsource]
      · exact provided
      · exact .nothing
    have hassignment : marks (Entry.assignment b.target).toList = [] := by
      rcases htarget with htarget | htarget <;> rw [htarget]
      · exact ht.marks_assignment owner
      · rfl
    have hwhat : ∀ text ∈ b.what.texts, φ (marks text.toList) := by
      intro text htext
      obtain ⟨given, hgiven, rfl⟩ := hconditions text htext
      exact marks_trimOr (by exact hφ.nil)
        (htexts block (Index.mem_of_block? block_eq).1 given hgiven)
    rw [String.toList_append, marks_append, hassignment, List.nil_append]
    exact Opening.marks_text hφ ht hprovided hwhat
  | function block block_eq name inputParam children container_eq =>
    refine Opening.marks_text hφ ht .nothing fun text htext => ?_
    obtain rfl := List.mem_singleton.mp htext
    refine marks_trimOr (by exact hφ.nil) (htexts block (Index.mem_of_block? block_eq).1 name ?_)
    simp [Block.texts, container_eq, Container.texts]
  | process => exact Opening.marks_text hφ ht .nothing (by simp [Opening.texts])

end

end BlockScript
