import BlockScript.Proofs.Assignments
import BlockScript.Proofs.ImplicitInputs

/-!
# Parameters that are captured

The parameter of a function is declared as one word, and no binder is told of it.  Made-up names and
names with a counter have an underscore, so a binding has the name of a parameter only if its
statement asks for that very word: by an output variable, or by a title where the id of the block
has no letter or digit (`Index.askedWord?`).  The first binding of the script that asks for the word
gets it, since the names in use are those of the bindings before it (`Index.Given.used_eq`).

* `parameter_captured_iff`: **which bindings have the name of a parameter**; where one of them lies
  in the body of the function, the body assigns to the parameter.
-/

namespace BlockScript

open Naming Emit

/-! ### Names of one word -/

namespace Naming

theorem toLower_eq_underscore {c : Char} (h : c.toLower = '_') : c = '_' := by
  delta Char.toLower at h
  split at h
  · rename_i hupper
    simp only [ge_iff_le, UInt32.le_iff_toNat_le] at hupper
    have hval := congrArg (fun d : Char => d.val.toNat) h
    simp only [UInt32.toNat_add] at hval
    have h1 : 'A'.val.toNat = 65 := rfl
    have h2 : 'Z'.val.toNat = 90 := rfl
    have h3 : ('a'.val - 'A'.val).toNat = 32 := rfl
    have h4 : '_'.val.toNat = 95 := rfl
    omega
  · exact h

theorem underscore_mem_foldCase {name : String} :
    '_' ∈ (foldCase name).toList ↔ '_' ∈ name.toList := by
  rw [foldCase, String.toList_ofList, List.mem_map]
  constructor
  · rintro ⟨c, hc, hlower⟩
    exact toLower_eq_underscore hlower ▸ hc
  · intro h
    exact ⟨'_', h, rfl⟩

/-- A name with an underscore is not a word, whatever the case of the letters. -/
theorem foldCase_ne_of_underscore {name word : String} (h : '_' ∈ name.toList)
    (hword : '_' ∉ word.toList) : foldCase name ≠ foldCase word := by
  intro heq
  exact hword (underscore_mem_foldCase.mp (heq ▸ underscore_mem_foldCase.mpr h))

theorem underscore_notMem_identifier (text : String) : '_' ∉ (identifier text).toList := by
  have hfallback : fallback.toList.all (· != '_') := by decide
  rw [identifier]
  split
  · exact fun hmem => by simpa using List.all_eq_true.mp hfallback '_' hmem
  · rw [String.toList_ofList]
    exact fun hmem => absurd (isAlphanum_joinWords hmem) (by decide)

end Naming

/-! ### Asking for a word -/

namespace Binder

theorem underscore_mem_numbered (name : String) (n : Nat) : '_' ∈ (numbered name n).toList := by
  simp [numbered]

theorem underscore_mem_of_mem_candidates {b : Binder} {block : Block} {name : String}
    (h : name ∈ b.candidates block) : '_' ∈ name.toList := by
  obtain ⟨n, -, rfl⟩ := List.mem_map.mp h
  simp

/-- There is a made-up name just where the id has a letter or a digit. -/
theorem candidates_eq_nil_iff {b : Binder} {block : Block} :
    b.candidates block = [] ↔ idChars block.id = [] := by
  rw [candidates, List.map_eq_nil_iff, List.filter_eq_nil_iff]
  constructor
  · intro h
    by_contra hne
    have hpos := List.length_pos_iff.mpr hne
    refine h (idChars block.id).length (by simp) ?_
    simp only [Bool.and_eq_true, decide_eq_true_eq]
    omega
  · intro h n hn
    simp [h] at hn ⊢
    omega

/-- The word that blocks which are written as one ask for: the last output variable there is, or
what stands for `last` if its id does not help to make up a name. -/
def wordFor (members : List Block) (last : Block) : Option String :=
  (members.reverse.findSome? explicitName?).or
    (if idChars last.id = [] then some (baseName last) else none)

section

variable {word : String} (hword : '_' ∉ word.toList)

include hword

theorem foldCase_takeUnique_iff (b : Binder) (name : String) :
    foldCase (b.takeUnique name).1 = foldCase word ↔
      foldCase name = foldCase word ∧ foldCase word ∉ b.used := by
  rw [takeUnique]
  split
  · rename_i hused
    have hmem : foldCase name ∈ b.used := by simpa [isUsed] using hused
    constructor
    · exact fun heq => absurd heq (foldCase_ne_of_underscore (underscore_mem_numbered _ _) hword)
    · rintro ⟨heq, hnew⟩
      exact absurd (heq ▸ hmem) hnew
  · rename_i hnew
    have hnot : foldCase name ∉ b.used := by simpa [isUsed] using hnew
    exact ⟨fun heq => ⟨heq, heq ▸ hnot⟩, fun h => h.1⟩

theorem foldCase_synthesize_iff (b : Binder) (block : Block) :
    foldCase (b.synthesize block).1 = foldCase word ↔
      idChars block.id = [] ∧ foldCase (baseName block) = foldCase word ∧
        foldCase word ∉ b.used := by
  by_cases hid : idChars block.id = []
  · have hnil : b.candidates block = [] := candidates_eq_nil_iff.mpr hid
    simp only [synthesize, hnil, List.find?_nil, List.getLast?_nil, Option.getD_none, hid,
      true_and]
    exact foldCase_takeUnique_iff hword b _
  · refine ⟨fun heq => ?_, fun h => absurd h.1 hid⟩
    cases hfind : (b.candidates block).find? (!b.isUsed ·) with
    | some name =>
      simp only [synthesize, hfind] at heq
      have hmem := List.mem_of_find?_eq_some hfind
      exact absurd heq (foldCase_ne_of_underscore (underscore_mem_of_mem_candidates hmem) hword)
    | none =>
      simp only [synthesize, hfind] at heq
      obtain ⟨heq, -⟩ := (foldCase_takeUnique_iff hword b _).mp heq
      cases hlast : (b.candidates block).getLast? with
      | none => exact absurd (candidates_eq_nil_iff.mp (List.getLast?_eq_none_iff.mp hlast)) hid
      | some name =>
        rw [hlast, Option.getD_some] at heq
        have hmem := List.mem_of_getLast? hlast
        exact absurd heq (foldCase_ne_of_underscore (underscore_mem_of_mem_candidates hmem) hword)

/-- **A word is given to those who ask for it**, if it is not in use. -/
theorem foldCase_nameFor_iff (b : Binder) (members : List Block) (last : Block) :
    foldCase (b.nameFor members last).1 = foldCase word ↔
      (wordFor members last).map foldCase = some (foldCase word) ∧ foldCase word ∉ b.used := by
  cases hexp : members.reverse.findSome? explicitName? with
  | some name =>
    simp only [nameFor, wordFor, hexp, Option.some_or, Option.map_some, Option.some.injEq]
    exact foldCase_takeUnique_iff hword b name
  | none =>
    simp only [nameFor, wordFor, hexp, Option.none_or]
    rw [foldCase_synthesize_iff hword]
    by_cases hid : idChars last.id = [] <;> simp [hid]

end

end Binder

/-! ### Bindings one after the other -/

namespace Index

variable {g : Index}

/-- The word that the statement of a block asks for. -/
def askedWord? (g : Index) (id : BlockId) : Option String :=
  match (g.scopeAt (g.parent? id)).sorted with
  | .error _ => none
  | .ok order =>
    (((g.scopeAt (g.parent? id)).statements order).find? (·.members.contains id)).bind fun st =>
      (g.block? id).bind (Binder.wordFor (st.members.filterMap g.block?))

/-- The bindings are given one after the other, each to a block by what its statement asks for. -/
inductive Given (g : Index) (start : Binder) : List Binding → Binder → Prop
  | nil : Given g start [] start
  | concat (l : List Binding) (b : Binder) (given : Given g start l b) (id : BlockId)
      (members : List Block) (last : Block)
      (asked : g.askedWord? id = Binder.wordFor members last) :
      Given g start (l ++ [⟨id, (b.nameFor members last).1⟩]) (b.nameFor members last).2

/-- The names in use are those of the bindings so far. -/
theorem Given.used_eq {start b : Binder} {l : List Binding} (h : Given g start l b) :
    b.used = start.used ++ l.map (foldCase ·.name) := by
  induction h with
  | nil => simp
  | concat l b given id members last asked ih =>
    rw [(b.chosen_nameFor members last).used_eq, ih]
    simp

theorem Given.split {start b : Binder} {l : List Binding} (h : Given g start l b)
    {before after : List Binding} {x : Binding} (heq : l = before ++ x :: after) :
    ∃ b' members last, Given g start before b' ∧
      g.askedWord? x.blockId = Binder.wordFor members last ∧
      x.name = (b'.nameFor members last).1 := by
  induction h generalizing after with
  | nil => simp at heq
  | concat l b given id members last asked ih =>
    rcases List.eq_nil_or_concat after with rfl | ⟨after, y, rfl⟩
    · obtain ⟨rfl, hx⟩ := List.append_inj' heq rfl
      obtain rfl := List.singleton_inj.mp hx
      exact ⟨b, members, last, given, asked, rfl⟩
    · rw [List.concat_eq_append, ← List.cons_append, ← List.append_assoc] at heq
      exact ih (List.append_inj' heq rfl).1

/-- **The first who asks for a word gets it.** -/
theorem Given.foldCase_eq_iff {start b : Binder} {l : List Binding} (h : Given g start l b)
    (hstart : start.used = []) {before after : List Binding} {x : Binding}
    (heq : l = before ++ x :: after) {word : String} (hword : '_' ∉ word.toList) :
    foldCase x.name = foldCase word ↔
      (g.askedWord? x.blockId).map foldCase = some (foldCase word) ∧
        ∀ y ∈ before, foldCase y.name ≠ foldCase word := by
  obtain ⟨b', members, last, hbefore, hasked, hname⟩ := h.split heq
  rw [hname, Binder.foldCase_nameFor_iff hword, hasked, hbefore.used_eq, hstart]
  simp

/-! ### The bindings of a scope -/

theorem Consistent.askedWord?_eq (hg : g.Consistent) {P : Option Place} {order : List BlockId}
    (hsorted : (g.scopeAt P).sorted = .ok order) {st : Statement}
    (hst : st ∈ (g.scopeAt P).statements order) {id : BlockId} (hid : id ∈ st.members)
    {last : Block} (hlast : g.block? id = some last) :
    g.askedWord? id = Binder.wordFor (st.members.filterMap g.block?) last := by
  have hs := hg.orderedScope hsorted
  have hmem : id ∈ order := hs.perm_members.subset (List.mem_flatMap.mpr ⟨st, hst, hid⟩)
  obtain ⟨-, hplace⟩ := hg.mem_scopeAt.mp (hs.perm.subset hmem)
  have hnodup := hs.perm_members.nodup_iff.mpr hs.nodup
  have hfind : ((g.scopeAt P).statements order).find? (·.members.contains id) = some st := by
    cases hfind : ((g.scopeAt P).statements order).find? (·.members.contains id) with
    | none => simpa [hid] using List.find?_eq_none.mp hfind st hst
    | some st' =>
      have hid' : id ∈ st'.members := by simpa using List.find?_some hfind
      rw [eq_of_mem_flatMap hnodup (List.mem_of_find?_eq_some hfind) hst hid' hid]
  simp only [askedWord?, hplace, hsorted, hfind, hlast, Option.bind_some]

/-- What is known while the names of a scope are given, after the bindings of `l`. -/
structure NamesSoFar (g : Index) (start : Binder) (l : List Binding) (state : Binder.State) :
    Prop where
  given : Given g start (l ++ state.1) state.2
  nodup : (state.1.map Binding.blockId).Nodup

/-- One more block is named. -/
theorem NamesSoFar.add {start : Binder} {l : List Binding} {state : Binder.State}
    (h : NamesSoFar g start l state) {id : BlockId} (hnew : Binding.nameIn state.1 id = none)
    {members : List Block} {last : Block}
    (hasked : g.askedWord? id = Binder.wordFor members last) :
    NamesSoFar g start l (state.1 ++ [⟨id, (state.2.nameFor members last).1⟩],
      (state.2.nameFor members last).2) where
  given := by
    rw [← List.append_assoc]
    exact .concat _ _ h.given id members last hasked
  nodup := by
    rw [Binding.nameIn_eq_none_iff] at hnew
    rw [List.map_append, List.nodup_append]
    refine ⟨h.nodup, List.nodup_singleton _, ?_⟩
    rintro x hx y hy rfl
    obtain rfl : x = id := List.mem_singleton.mp hy
    exact hnew hx

section

variable (hg : g.Consistent) {P : Option Place} {order : List BlockId}
  (hsorted : (g.scopeAt P).sorted = .ok order) {start : Binder} {l : List Binding}

include hg hsorted

theorem namesSoFar_bindChain {state : Binder.State} (h : NamesSoFar g start l state) {c : Chain}
    (hc : c ∈ (g.scopeAt P).chains order) (hnew : Binding.nameIn state.1 c.terminal = none) :
    NamesSoFar g start l (Binder.bindChain (g.scopeAt P) state c) := by
  have hst := (hg.orderedScope hsorted).chain_mem_iff.mpr hc
  rw [Binder.bindChain]
  split
  · rename_i last _ hlast
    rw [scopeAt_index] at hlast ⊢
    have hadd := h.add hnew (hg.askedWord?_eq hsorted hst c.terminal_mem hlast)
    rwa [← Binding.set_of_new hnew] at hadd
  · exact h

theorem namesSoFar_bindContainer {state : Binder.State} (h : NamesSoFar g start l state)
    {id : BlockId} (hid : id ∈ order) :
    NamesSoFar g start l (Binder.bindContainer (g.scopeAt P) state id) := by
  rw [Binder.bindContainer]
  split
  · exact h
  · rename_i block hblock
    rw [scopeAt_index] at hblock
    split
    · rename_i hneeds
      simp only [Bool.and_eq_true, Option.isNone_iff_eq_none] at hneeds
      have hcf : (g.scopeAt P).index.isControlFlow id := by
        rw [scopeAt_index]
        exact isControlFlow_iff.mpr ⟨block, hblock, hneeds.1.1⟩
      have hst := (hg.orderedScope hsorted).container_mem_iff.mpr ⟨hid, hcf⟩
      have hasked := hg.askedWord?_eq hsorted hst (List.mem_singleton_self id) hblock
      rw [Statement.members, List.filterMap_cons_some hblock, List.filterMap_nil] at hasked
      exact h.add hneeds.1.2 hasked
    · exact h

/-- The chains of a scope end in different blocks, so none takes the name of another. -/
theorem namesSoFar_foldl_bindChain {chains : List Chain}
    (hsub : chains ⊆ (g.scopeAt P).chains order) (hnodup : (chains.map Chain.terminal).Nodup)
    {state : Binder.State} (h : NamesSoFar g start l state)
    (hnew : ∀ c ∈ chains, Binding.nameIn state.1 c.terminal = none) :
    NamesSoFar g start l (chains.foldl (Binder.bindChain (g.scopeAt P)) state) := by
  induction chains generalizing state with
  | nil => exact h
  | cons c chains ih =>
    rw [List.map_cons, List.nodup_cons] at hnodup
    refine ih (fun d hd => hsub (List.mem_cons_of_mem _ hd)) hnodup.2
      (namesSoFar_bindChain hg hsorted h (hsub List.mem_cons_self) (hnew c List.mem_cons_self))
      fun d hd => ?_
    have hne : c.terminal ≠ d.terminal := fun heq =>
      hnodup.1 (heq ▸ List.mem_map_of_mem hd)
    rcases @Binder.bindChain_cases (g.scopeAt P) state c with ⟨-, named, -, heq⟩ | ⟨-, heq⟩
    · rw [heq, Binding.nameIn_set, if_neg hne]
      exact hnew d (List.mem_cons_of_mem _ hd)
    · rw [heq]
      exact hnew d (List.mem_cons_of_mem _ hd)

theorem namesSoFar_bindScope {b : Binder} (h : Given g start l b) :
    NamesSoFar g start l (b.bindScope (g.scopeAt P) ((g.scopeAt P).chains order) order) := by
  have hs := hg.orderedScope hsorted
  have hterminals : (((g.scopeAt P).chains order).map Chain.terminal).Nodup := by
    refine List.pairwise_map.mpr ((List.nodup_flatMap.mp hs.runs.nodup).2.imp ?_)
    intro c d hdisjoint heq
    exact hdisjoint c.terminal_mem (heq ▸ d.terminal_mem)
  have hstart : NamesSoFar g start l ([], b) := ⟨by simpa using h, List.nodup_nil⟩
  have hchains := namesSoFar_foldl_bindChain hg hsorted (List.Subset.refl _) hterminals hstart
    fun _ _ => rfl
  exact List.foldlRecOn (motive := NamesSoFar g start l) order _ hchains
    fun _ hstate _ hid => namesSoFar_bindContainer hg hsorted hstate hid

end

/-- **The bindings of a generation are given one after the other.** -/
theorem Consistent.given_namesAfter (hg : g.Consistent) (b : Binder) {l : List (Option Place)}
    (hl : l.Nodup) : Given g b (g.namesAfter b l).2.entries (g.namesAfter b l).1 := by
  induction l using List.reverseRecOn with
  | nil => exact .nil
  | append_singleton l P ih =>
    obtain ⟨hnodup, -, hdisjoint⟩ := List.nodup_append.mp hl
    have hbefore := ih hnodup
    rw [namesAfter_concat]
    cases hsorted : (g.scopeAt P).sorted with
    | error cycle => simpa only [nameScope, hsorted] using hbefore
    | ok order =>
      obtain ⟨hgiven, hids⟩ := namesSoFar_bindScope hg hsorted hbefore
      rw [nameScope_of_sorted hsorted, Table.foldl_append_of_new hids fun x hx => ?_]
      · exact hgiven
      · refine hg.nameOf_namesAfter_eq_none b fun hmem => ?_
        have hname := Option.isSome_iff_ne_none.mpr fun hnone =>
          Binding.nameIn_eq_none_iff.mp hnone (List.mem_map_of_mem hx)
        obtain ⟨-, rfl⟩ := hg.mem_scopeAt.mp ((hg.isSome_nameIn_iff hsorted _ _).mp hname).1
        exact hdisjoint _ hmem _ (List.mem_singleton_self _) rfl

/-! ### What the body of a function assigns -/

/-- The block lies in the body of the function, with no other function in between. -/
def InBody (g : Index) (f id : BlockId) : Prop := some ⟨f, .body⟩ ∈ g.scopesFrom (g.parent? id)

instance (f id : BlockId) : Decidable (g.InBody f id) :=
  inferInstanceAs (Decidable (some ⟨f, .body⟩ ∈ g.scopesFrom (g.parent? id)))

variable {t : Table} {functions main : List BlockId} {f : BlockId}

theorem isCallable_of_inputParam? {param : String} (h : g.inputParam? f = some param) :
    g.isCallable f := by
  obtain ⟨block, name, children, hblock, hc⟩ := exists_function_of_inputParam? h
  refine isCallable_iff.mpr ⟨block, hblock, ?_⟩
  simp [Block.isCallable, Block.functionName?, hc]

/-- Of the scopes that are written, those that lie in the body of a function are written there. -/
theorem Ordering.mem_scopesIn_iff (h : g.Ordering functions main) (hf : g.isCallable f)
    {Q : Option Place} (hQ : Q ∈ g.written functions main) :
    Q ∈ g.scopesIn g.blocks.length ⟨f, .body⟩ ↔ some ⟨f, .body⟩ ∈ g.scopesFrom Q := by
  have hg := h.consistent
  refine ⟨fun hin => (hg.sorts_of_mem_scopesIn hin).1, fun hbody => ?_⟩
  rcases h.mem_written.mp hQ with ⟨f', hf', hin⟩ | ⟨-, htop⟩
  · have hroot := hg.root_unique (hg.sorts_of_mem_scopesIn hin).1 hbody
      (Ordering.scopesFrom_body hf') (Ordering.scopesFrom_body hf)
    cases hroot
    exact hin
  · have hroot := hg.root_unique (h.none_mem_scopesFrom htop).1 hbody scopesFrom_none
      (Ordering.scopesFrom_body hf)
    cases hroot

/-- The definition of a function stands in the script. -/
theorem Ordering.definition_infix (h : g.Ordering functions main) (hf : g.isCallable f) :
    (Layout.definition g t f).entries <:+: (Layout.script g t functions main).entries := by
  obtain ⟨l, m, rfl⟩ := List.append_of_mem ((h.mem_functions f).mpr hf)
  refine ⟨[.comment Plan.functionsBanner, .blank] ++ (Layout.definitions g t l).entries,
    .blank :: (Layout.definitions g t m).entries ++
      Plan.part Plan.executionBanner main (Layout.execution g t main).entries, ?_⟩
  simp [Layout.script, Plan.part, Layout.definitions, Layout.entries_spaced]

/-- **A function assigns the bindings of its body.** -/
theorem Named.assigns_definition_iff (h : g.Named t functions main)
    (hids : (t.entries.map Binding.blockId).Nodup) (hf : g.isCallable f) {x : Binding} :
    (∃ e ∈ (Layout.definition g t f).entries, e.assigns? = some x) ↔
      x ∈ t.entries ∧ g.InBody f x.blockId := by
  have hassigns : ∀ e ∈ (Layout.definition g t f).entries,
      e.assigns? = some x ↔ x.blockId ∈ e.rendered ∧ x ∈ t.entries := by
    intro e he
    have hentry :=
      (Layout.composed_script h.toOrdering).partEntry e ((h.definition_infix hf).subset he)
    rw [← Option.mem_toList, hentry.assigns?_eq h, List.mem_filterMap]
    simp only [Table.binding?_eq_some_iff hids]
    constructor
    · rintro ⟨id, hid, hx, rfl⟩
      exact ⟨hid, hx⟩
    · exact fun ⟨hid, hx⟩ => ⟨_, hid, hx, rfl⟩
  have hrendered := h.perm_rendered_definition (t := t) ((h.mem_functions f).mpr hf)
  have hbody : (∃ e ∈ (Layout.definition g t f).entries, x.blockId ∈ e.rendered) ↔
      x.blockId ∈ g.ids ∧ g.parent? x.blockId ∈ g.scopesIn g.blocks.length ⟨f, .body⟩ := by
    rw [← h.consistent.mem_blocksOf, ← hrendered.mem_iff, List.mem_flatMap]
  constructor
  · rintro ⟨e, he, hx⟩
    obtain ⟨hmem, hentry⟩ := (hassigns e he).mp hx
    obtain ⟨-, hin⟩ := hbody.mp ⟨e, he, hmem⟩
    exact ⟨hentry, (h.consistent.sorts_of_mem_scopesIn hin).1⟩
  · rintro ⟨hx, hin⟩
    have hname : (t.nameOf x.blockId).isSome := Option.isSome_iff_ne_none.mpr fun hnone =>
      Binding.nameIn_eq_none_iff.mp hnone (List.mem_map_of_mem hx)
    obtain ⟨hid, hwritten, -⟩ := (h.isSome_nameOf x.blockId).mp hname
    obtain ⟨e, he, hmem⟩ := hbody.mpr ⟨hid, (h.mem_scopesIn_iff hf hwritten).mpr hin⟩
    exact ⟨e, he, (hassigns e he).mpr ⟨hmem, hx⟩⟩

end Index

theorem Entry.target?_of_assigns? {e : Entry} {x : Binding} (h : e.assigns? = some x) :
    e.target? = some x.name := by
  cases e with
  | pipeline level target source stages =>
    obtain ⟨last, -, hx⟩ := Option.bind_eq_some_iff.mp h
    obtain ⟨name, rfl, rfl⟩ := Option.map_eq_some_iff.mp hx
    rfl
  | opening level owner target source what =>
    obtain ⟨name, rfl, rfl⟩ := Option.map_eq_some_iff.mp h
    rfl
  | _ => cases h

/-! ### Captured parameters -/

theorem Source.eq_identifier_of_ofParameter {param p : String}
    (h : Source.ofParameter param = some (.parameter p)) :
    Text.isBlankText param = false ∧ p = identifier (Text.trim param) := by
  rw [Source.ofParameter] at h
  split at h
  · cases h
  · rename_i hblank
    exact ⟨by simpa using hblank, (Source.parameter.inj (Option.some.inj h)).symm⟩

/-- The definition declares the parameter. -/
theorem Layout.parameters_mem_definition {g : Index} {t : Table} {f : BlockId} {param p : String}
    (hparam : g.inputParam? f = some param)
    (hgiven : Source.ofParameter param = some (.parameter p)) :
    .parameters 1 p ∈ (definition g t f).entries := by
  obtain ⟨block, name, children, hblock, hc⟩ := Index.exists_function_of_inputParam? hparam
  obtain ⟨hblank, hp⟩ := Source.eq_identifier_of_ofParameter hgiven
  simp [definition, functionBody, hblock, hc, hblank, hp]

/-- The definition of a function in the script of a snapshot. -/
def Snapshot.definition (s : Snapshot) (suffixLength : Int) (f : BlockId) : List Entry :=
  (Layout.definition s.index (s.plan suffixLength).pass.table f).entries

/-- **Which bindings have the name of a parameter.**  A binding has the name of a function's
parameter, whatever the case of the letters, just where its statement asks for that word and no
binding of the script before it has the name.  The definition of the function assigns to the
parameter that it declares just where such a binding lies in its body. -/
theorem parameter_captured_iff {s : Snapshot} (hs : s.Valid) (options : GeneratorOptions)
    {f : BlockId} {param p : String} (hparam : s.index.inputParam? f = some param)
    (hgiven : Source.ofParameter param = some (.parameter p)) :
    (∀ before x after, (s.generate options).bindings = before ++ x :: after →
      (foldCase x.name = foldCase p ↔
        (s.index.askedWord? x.blockId).map foldCase = some (foldCase p) ∧
          ∀ y ∈ before, foldCase y.name ≠ foldCase p)) ∧
      ∀ es, (s.plan options.suffixLength).entries? = some es →
        s.definition options.suffixLength f <:+: es ∧
          .parameters 1 p ∈ s.definition options.suffixLength f ∧
          ((∃ e ∈ s.definition options.suffixLength f,
              ∃ name, e.target? = some name ∧ foldCase name = foldCase p) ↔
            ∃ x ∈ (s.generate options).bindings, s.index.InBody f x.blockId ∧
              foldCase x.name = foldCase p) := by
  have hf := Index.isCallable_of_inputParam? hparam
  have hword : '_' ∉ p.toList := by
    rw [(Source.eq_identifier_of_ofParameter hgiven).2]
    exact underscore_notMem_identifier _
  cases ho : Snapshot.orders s.index with
  | error cycle =>
    obtain ⟨hnone, htable, -⟩ := Snapshot.plan_of_cycle options.suffixLength ho
    refine ⟨fun before x after hsplit => ?_, fun es hes => ?_⟩
    · have hempty : (s.generate options).bindings = [] := congrArg Table.entries htable
      simp [hempty] at hsplit
    · rw [hnone] at hes
      cases hes
  | ok o =>
    obtain ⟨functions, main⟩ := o
    obtain ⟨htable, hentries, -⟩ := Snapshot.plan_of_orders hs options.suffixLength ho
    have hord := hs.consistent.ordering ho
    have hrun := hs.consistent.given_namesAfter { suffixLength := options.suffixLength }
      hord.nodup_written
    have hnamed := hord.named { suffixLength := options.suffixLength }
    have hids := s.index.nodup_ids_namesAfter { suffixLength := options.suffixLength }
      (s.index.written functions main)
    rw [← htable] at hrun hnamed hids
    refine ⟨fun before x after hsplit => hrun.foldCase_eq_iff rfl hsplit hword, fun es hes => ?_⟩
    obtain rfl := Option.some.inj (hentries.symm.trans hes)
    refine ⟨hord.definition_infix hf, Layout.parameters_mem_definition hparam hgiven, ?_⟩
    constructor
    · rintro ⟨e, he, name, htarget, hname⟩
      have hentry :=
        (Layout.composed_script hord).partEntry e ((hord.definition_infix hf).subset he)
      obtain ⟨id, hassigns⟩ := hentry.assigns?_of_target hnamed htarget
      obtain ⟨hx, hin⟩ := (hnamed.assigns_definition_iff hids hf).mp ⟨e, he, hassigns⟩
      exact ⟨_, hx, hin, hname⟩
    · rintro ⟨x, hx, hin, hname⟩
      obtain ⟨e, he, hassigns⟩ := (hnamed.assigns_definition_iff hids hf).mpr ⟨hx, hin⟩
      exact ⟨e, he, x.name, Entry.target?_of_assigns? hassigns, hname⟩

/-- `load` asks for the name of the parameter, in capitals, and `next` takes the input of the
body. -/
def capturedRows : Snapshot where
  blocks := [
    { id := "task",
      container := some (.function "Invoke-Task" "rows" ["load", "left", "right", "next"]) },
    { id := "load", command := "Get-Content", outputVariable := "ROWS" },
    { id := "left", command := "Out-File" }, { id := "right", command := "Out-Host" },
    { id := "next", command := "Measure-Object" }]
  connections := [{ source := "load", target := "left" }, { source := "load", target := "right" }]

theorem parameter_captured_iff_capturedRows :
    capturedRows.Valid ∧ capturedRows.index.inputParam? "task" = some "rows" ∧
      (∃ x ∈ (capturedRows.generate {}).bindings, capturedRows.index.InBody "task" x.blockId ∧
        foldCase x.name = foldCase "Rows") ∧
      ∃ e ∈ capturedRows.definition 4 "task",
        ∃ name, e.target? = some name ∧ foldCase name = foldCase "Rows" := by
  have hvalid : capturedRows.Valid := by constructor <;> decide
  have hparam : capturedRows.index.inputParam? "task" = some "rows" := by decide +kernel
  have hplan : (capturedRows.plan 4).entries?.isSome := by decide +kernel
  obtain ⟨es, hes⟩ := Option.isSome_iff_exists.mp hplan
  obtain ⟨hnames, hassigned⟩ := parameter_captured_iff hvalid {} hparam (p := "Rows") rfl
  have hbindings : (capturedRows.generate {}).bindings = [⟨"load", "ROWS"⟩] := by decide +kernel
  have hin : capturedRows.index.InBody "task" "load" := by decide +kernel
  have hasked : (capturedRows.index.askedWord? "load").map foldCase = some (foldCase "Rows") := by
    decide +kernel
  have hload := (hnames [] ⟨"load", "ROWS"⟩ [] hbindings).mpr ⟨hasked, by simp⟩
  have hcaptured : ∃ x ∈ (capturedRows.generate {}).bindings,
      capturedRows.index.InBody "task" x.blockId ∧ foldCase x.name = foldCase "Rows" :=
    ⟨⟨"load", "ROWS"⟩, by rw [hbindings]; simp, hin, hload⟩
  exact ⟨hvalid, hparam, hcaptured, (hassigned es hes).2.2.mpr hcaptured⟩

/-- The body assigns to the parameter, and then pipes it into a statement that has no producer. -/
theorem parameter_overwritten :
    capturedRows.Valid ∧ (capturedRows.generate {}).bindings = [⟨"load", "ROWS"⟩] ∧
      capturedRows.index.InBody "task" "load" ∧
      foldCase "ROWS" = foldCase (identifier (Text.trim "rows")) ∧
      ((capturedRows.plan 4).entries?.getD []).filterMap Entry.target? = ["ROWS"] ∧
      ((capturedRows.plan 4).entries?.getD []).filterMap (fun e => e.begins?.bind fun id =>
        e.source?.map fun source => (id, source.text)) =
        [("load", "$Rows"), ("left", "$ROWS"), ("right", "$ROWS"), ("next", "$Rows")] := by
  have hvalid : capturedRows.Valid := by constructor <;> decide
  exact ⟨hvalid, by decide +kernel⟩

end BlockScript
