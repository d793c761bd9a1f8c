import BlockScript.Proofs.TableViews

/-!
# The tree of views

A table that is in use hands out views, each one below a view that it handed out before; the views
are numbered, and the root has the number zero.  `Session` is a table with its views, and
`Session.run` makes changes to it one after the other.

* `Session.step_cases`: what one change can do; `Session.Sound` is what every change keeps.
* `Session.get_of_later`: **what a view answers never changes.**
* `Session.SeenBelow.run`: **a name that is published is seen from its view and from the views below
  it, and from no others**, by induction on the changes that come after.
-/

namespace BlockScript

namespace Table

/-- A change to a table.  A publication names the view it is made under by its number. -/
inductive Change where
  | publish (bindings : List Binding) (parent : Nat)
  | append (binding : Binding)
  deriving DecidableEq, Repr

/-- A view with the number of the view above it; only the root has none. -/
structure Issued where
  view : View := {}
  parent? : Option Nat := none
  deriving DecidableEq, Repr

/-- A table with the views that it has handed out, the root first. -/
structure Session where
  table : Table := {}
  issued : List Issued := [{}]
  deriving DecidableEq, Repr

namespace Session

/-- What the view with this number answers for a block. -/
def get (s : Session) (view : Nat) (id : BlockId) : Option String :=
  s.issued[view]?.bind fun issued => s.table.lookup issued.view id

def parent? (s : Session) (view : Nat) : Option Nat := s.issued[view]?.bind Issued.parent?

/-- Makes a change.  A publication under a view that was never handed out is refused. -/
def step (s : Session) : Change → Option Session
  | .append binding => some { s with table := s.table.append binding }
  | .publish bindings parent => s.issued[parent]?.map fun issued =>
    let published := s.table.publish bindings issued.view
    ⟨published.1, s.issued ++ [⟨published.2, some parent⟩]⟩

/-- Makes changes one after the other. -/
def run (s : Session) (changes : List Change) : Option Session := changes.foldlM step s

/-- The view `below` is `view`, or it was published somewhere below it. -/
inductive Below (s : Session) (view : Nat) : Nat → Prop
  | self : Below s view view
  | child (below parent : Nat) (parent_eq : s.parent? below = some parent)
      (rest : Below s view parent) : Below s view below

variable {s s' s'' : Session}

/-! ### One change -/

theorem step_cases {change : Change} (h : s.step change = some s') :
    (∃ binding, change = .append binding ∧
        s' = { s with table := [binding].foldl Table.append s.table }) ∨
      ∃ bindings parent issued, change = .publish bindings parent ∧
        s.issued[parent]? = some issued ∧
        s' = ⟨(s.table.publish bindings issued.view).1,
          s.issued ++ [⟨(s.table.publish bindings issued.view).2, some parent⟩]⟩ := by
  cases change with
  | append binding => exact Or.inl ⟨binding, rfl, (Option.some.inj h).symm⟩
  | publish bindings parent =>
    obtain ⟨issued, hissued, heq⟩ := Option.map_eq_some_iff.mp h
    exact Or.inr ⟨bindings, parent, issued, rfl, hissued, heq.symm⟩

/-- What every change keeps: no view shows anything behind the end of the table, and a view is
handed out after the one above it. -/
structure Sound (s : Session) : Prop where
  within : ∀ issued ∈ s.issued, issued.view.Within s.table
  older : ∀ view parent, s.parent? view = some parent → parent < view

/-- Nothing that is in the table or was handed out has changed. -/
structure Later (s s' : Session) : Prop where
  entries : s.table.entries <+: s'.table.entries
  issued : s.issued <+: s'.issued

theorem sound_start : Sound {} where
  within := by
    intro issued hissued
    rw [List.mem_singleton.mp hissued]
    exact View.within_empty _
  older := by
    intro view parent h
    cases view <;> simp [parent?] at h

theorem Later.refl (s : Session) : s.Later s := ⟨List.prefix_refl _, List.prefix_refl _⟩

theorem Later.trans (h : s.Later s') (h' : s'.Later s'') : s.Later s'' :=
  ⟨h.entries.trans h'.entries, h.issued.trans h'.issued⟩

theorem later_of_step {change : Change} (h : s.step change = some s') : s.Later s' := by
  rcases step_cases h with ⟨binding, -, rfl⟩ | ⟨bindings, parent, issued, -, -, rfl⟩
  · exact ⟨extends_foldl_append _ _, List.prefix_refl _⟩
  · exact ⟨extends_foldl_append _ _, List.prefix_append _ _⟩

/-- A view that was handed out has kept its number. -/
theorem Later.getElem? (h : s.Later s') {view : Nat} (hview : view < s.issued.length) :
    s'.issued[view]? = s.issued[view]? := by
  obtain ⟨new, hnew⟩ := h.issued
  rw [← hnew, List.getElem?_append_left hview]

theorem Later.parent?_eq (h : s.Later s') {view : Nat} (hview : view < s.issued.length) :
    s'.parent? view = s.parent? view := by rw [parent?, parent?, h.getElem? hview]

theorem lt_length_of_getElem? {view : Nat} {issued : Issued} (h : s.issued[view]? = some issued) :
    view < s.issued.length := (List.getElem?_eq_some_iff.mp h).1

theorem lt_length_of_parent? {view parent : Nat} (h : s.parent? view = some parent) :
    view < s.issued.length := by
  obtain ⟨issued, hissued, -⟩ := Option.bind_eq_some_iff.mp h
  exact lt_length_of_getElem? hissued

theorem Sound.step (hs : s.Sound) {change : Change} (h : s.step change = some s') : s'.Sound := by
  have hlater := later_of_step h
  rcases step_cases h with ⟨binding, -, rfl⟩ | ⟨bindings, parent, issued, -, hparent, rfl⟩
  · exact ⟨fun issued hmem => within_of_extends (hs.within issued hmem) hlater.entries, hs.older⟩
  · constructor
    · intro issued' hmem
      rcases List.mem_append.mp hmem with hmem | hmem
      · exact within_of_extends (hs.within issued' hmem) hlater.entries
      · rw [List.mem_singleton.mp hmem]
        exact within_publish (hs.within issued (List.mem_of_getElem? hparent)) bindings
    · intro view above habove
      by_cases hold : view < s.issued.length
      · rw [hlater.parent?_eq hold] at habove
        exact hs.older view above habove
      · have hlt := lt_length_of_getElem? hparent
        have hview := lt_length_of_parent? habove
        simp only [List.length_append, List.length_singleton] at hview
        obtain rfl : view = s.issued.length := by omega
        rw [parent?, List.getElem?_concat_length] at habove
        obtain rfl : parent = above := Option.some.inj habove
        exact hlt

/-! ### A run of changes -/

theorem run_cons {change : Change} {changes : List Change} :
    s.run (change :: changes) = some s' ↔ ∃ mid, s.step change = some mid ∧
      mid.run changes = some s' := by
  rw [run, List.foldlM_cons]
  exact Option.bind_eq_some_iff

theorem Sound.run (hs : s.Sound) {changes : List Change} (h : s.run changes = some s') :
    s'.Sound ∧ s.Later s' := by
  induction changes generalizing s with
  | nil =>
    obtain rfl : s = s' := Option.some.inj h
    exact ⟨hs, .refl s⟩
  | cons change changes ih =>
    obtain ⟨mid, hstep, hrest⟩ := run_cons.mp h
    obtain ⟨hsound, hlater⟩ := ih (hs.step hstep) hrest
    exact ⟨hsound, (later_of_step hstep).trans hlater⟩

/-- **What a view answers never changes.** -/
theorem get_of_later (hs : s.Sound) (h : s.Later s') {view : Nat} (hview : view < s.issued.length)
    (id : BlockId) : s'.get view id = s.get view id := by
  rw [get, get, h.getElem? hview, List.getElem?_eq_getElem hview, Option.bind_some,
    Option.bind_some]
  exact lookup_of_extends (hs.within _ (List.getElem_mem hview)) h.entries id

/-- The first name of a block stays. -/
theorem nameOf_of_later (h : s.Later s') {id : BlockId} {name : String}
    (hname : s.table.nameOf id = some name) : s'.table.nameOf id = some name := by
  obtain ⟨new, hnew⟩ := h.entries
  rw [nameOf] at hname
  rw [nameOf, ← hnew, Binding.nameIn_append, hname, Option.some_or]

theorem get_eq_none_of_nameOf {id : BlockId} (h : s.table.nameOf id = none) (view : Nat) :
    s.get view id = none := by
  rw [get, Option.bind_eq_none_iff]
  exact fun issued _ => lookup_eq_none_of_nameOf h

/-- **A new view shows the names that are new, and for all other blocks what its parent shows.** -/
theorem get_publish (hs : s.Sound) {bindings : List Binding} {parent : Nat}
    (h : s.step (.publish bindings parent) = some s') (id : BlockId) :
    s'.get s.issued.length id =
      if (s.table.nameOf id).isSome then s'.get parent id else Binding.nameIn bindings id := by
  rcases step_cases h with ⟨binding, hne, -⟩ | ⟨_, _, issued, heq, hissued, hs'⟩
  · cases hne
  · cases heq
    have hparent : s'.get parent id = s.table.lookup issued.view id := by
      rw [get_of_later hs (later_of_step h) (lt_length_of_getElem? hissued), get, hissued,
        Option.bind_some]
    have hnew := lookup_publish (hs.within issued (List.mem_of_getElem? hissued)) bindings id
    rw [hparent, ← hnew, hs', get, List.getElem?_concat_length, Option.bind_some]

/-! ### The way up -/

theorem Below.le (hs : s.Sound) {view below : Nat} (h : s.Below view below) : view ≤ below := by
  induction h with
  | self => exact Nat.le_refl _
  | child below parent parent_eq rest ih =>
    exact Nat.le_trans ih (Nat.le_of_lt (hs.older _ _ parent_eq))

theorem Below.trans {a b c : Nat} (hab : s.Below a b) (hbc : s.Below b c) : s.Below a c := by
  induction hbc with
  | self => exact hab
  | child below parent parent_eq rest ih => exact .child below parent parent_eq ih

/-- A view is below another one from the start, or never. -/
theorem below_iff_of_later (hs : s.Sound) (h : s.Later s') {view below : Nat}
    (hbelow : below < s.issued.length) : s'.Below view below ↔ s.Below view below := by
  constructor
  · intro hpath
    induction hpath with
    | self => exact .self
    | child below parent parent_eq rest ih =>
      rw [h.parent?_eq hbelow] at parent_eq
      exact .child below parent parent_eq (ih (Nat.lt_trans (hs.older _ _ parent_eq) hbelow))
  · intro hpath
    induction hpath with
    | self => exact .self
    | child below parent parent_eq rest ih =>
      refine .child below parent ?_ (ih (Nat.lt_trans (hs.older _ _ parent_eq) hbelow))
      rw [h.parent?_eq hbelow, parent_eq]

/-- What has the same parent as a view, or is above it, is not below it. -/
theorem not_below_of_beside (hs : s.Sound) {view other : Nat} (hne : other ≠ view)
    (h : s.parent? other = s.parent? view ∨ s.Below other view) : ¬ s.Below view other := by
  intro hbelow
  cases hbelow with
  | self => exact hne rfl
  | child _ parent parent_eq rest =>
    have hle := rest.le hs
    have hlt := hs.older _ _ parent_eq
    rcases h with hsibling | habove
    · have := hs.older view parent (hsibling.symm.trans parent_eq)
      omega
    · have := habove.le hs
      omega

/-- A block has got a name under `view`, and the views from which it is seen are those below. -/
structure SeenBelow (s : Session) (id : BlockId) (name : String) (view : Nat) : Prop where
  issued : view < s.issued.length
  named : (s.table.nameOf id).isSome
  seen : ∀ other < s.issued.length, s.Below view other → s.get other id = some name
  hidden : ∀ other, ¬ s.Below view other → s.get other id = none

theorem get_eq_none_of_le {view : Nat} (h : s.issued.length ≤ view) (id : BlockId) :
    s.get view id = none := by
  rw [get, List.getElem?_eq_none h, Option.bind_none]

/-- The block has got its name when it is published. -/
theorem seenBelow_publish (hs : s.Sound) {bindings : List Binding} {parent : Nat}
    (h : s.step (.publish bindings parent) = some s') {id : BlockId} {name : String}
    (hnew : s.table.nameOf id = none) (hname : Binding.nameIn bindings id = some name) :
    s'.SeenBelow id name s.issued.length := by
  obtain ⟨issued, -, heq⟩ := Option.map_eq_some_iff.mp h
  have hlength : s'.issued.length = s.issued.length + 1 := by simp [← heq]
  have hown : s'.get s.issued.length id = some name := by
    rw [get_publish hs h, hnew, if_neg (by simp), hname]
  refine ⟨by omega, ?_, fun other hother hbelow => ?_, fun other hbelow => ?_⟩
  · have htable : s'.table = bindings.foldl Table.append s.table := by
      rw [← heq]
      rfl
    rw [htable, nameOf_foldl_append, hname]
    simp
  · have hle := hbelow.le (hs.step h)
    obtain rfl : other = s.issued.length := by omega
    exact hown
  · rcases Nat.lt_trichotomy other s.issued.length with hlt | rfl | hgt
    · rw [get_of_later hs (later_of_step h) hlt, get_eq_none_of_nameOf hnew]
    · exact absurd .self hbelow
    · exact get_eq_none_of_le (by omega) id

/-- One change leaves the answers of the views as they are, and a new view sees the name if its
parent does. -/
theorem SeenBelow.step (hs : s.Sound) {id : BlockId} {name : String} {view : Nat}
    (h : s.SeenBelow id name view) {change : Change} (hstep : s.step change = some s') :
    s'.SeenBelow id name view := by
  have hlater := later_of_step hstep
  obtain ⟨known, hknown⟩ := Option.isSome_iff_exists.mp h.named
  -- a view that is new has a parent, and both see the name or neither does
  have hnew : ∀ other < s'.issued.length, ¬ other < s.issued.length → ∃ parent,
      parent < s.issued.length ∧ (s'.Below view other ↔ s.Below view parent) ∧
        s'.get other id = s.get parent id := by
    intro other hother hold
    rcases step_cases hstep with
      ⟨binding, -, rfl⟩ | ⟨bindings, parent, issued, rfl, hissued, hs'⟩
    · exact absurd hother hold
    · have hlength : s'.issued.length = s.issued.length + 1 := by simp [hs']
      obtain rfl : other = s.issued.length := by omega
      have hparent := lt_length_of_getElem? hissued
      have habove : s'.parent? s.issued.length = some parent := by
        rw [hs', parent?, List.getElem?_concat_length]
        rfl
      refine ⟨parent, hparent, ?_, ?_⟩
      · rw [← below_iff_of_later hs hlater hparent]
        refine ⟨fun hpath => ?_, .child _ _ habove⟩
        cases hpath with
        | self => exact absurd h.issued (Nat.lt_irrefl _)
        | child _ parent' parent_eq rest =>
          rw [habove] at parent_eq
          exact Option.some.inj parent_eq ▸ rest
      · rw [get_publish hs hstep, if_pos h.named, get_of_later hs hlater hparent]
  refine ⟨Nat.lt_of_lt_of_le h.issued hlater.issued.length_le, ?_, fun other hother hbelow => ?_,
    fun other hbelow => ?_⟩
  · rw [nameOf_of_later hlater hknown]
    rfl
  · by_cases hold : other < s.issued.length
    · rw [get_of_later hs hlater hold]
      exact h.seen other hold ((below_iff_of_later hs hlater hold).mp hbelow)
    · obtain ⟨parent, hparent, hiff, hget⟩ := hnew other hother hold
      rw [hget]
      exact h.seen parent hparent (hiff.mp hbelow)
  · by_cases hold : other < s.issued.length
    · rw [get_of_later hs hlater hold]
      exact h.hidden other fun hpath => hbelow ((below_iff_of_later hs hlater hold).mpr hpath)
    · by_cases hother : other < s'.issued.length
      · obtain ⟨parent, -, hiff, hget⟩ := hnew other hother hold
        rw [hget]
        exact h.hidden parent fun hpath => hbelow (hiff.mpr hpath)
      · exact get_eq_none_of_le (by omega) id

/-- **A name that is published is seen from its view and from the views below it, and from no
others**, whatever comes after. -/
theorem SeenBelow.run (hs : s.Sound) {id : BlockId} {name : String} {view : Nat}
    (h : s.SeenBelow id name view) {changes : List Change} (hrun : s.run changes = some s') :
    s'.SeenBelow id name view := by
  induction changes generalizing s with
  | nil =>
    obtain rfl : s = s' := Option.some.inj hrun
    exact h
  | cons change changes ih =>
    obtain ⟨mid, hstep, hrest⟩ := run_cons.mp hrun
    exact ih (hs.step hstep) (h.step hs hstep) hrest

end Session

end Table

open Table

/-- **Views are exact and never change.**  In every run in which a publication is made under the
root or under a view that was handed out before:

* what a view answers is the same after any later changes, and the first name of a block stays;
* a view that is published answers with the name that is published for a block, if the block is
  among those published and the table had no name for it, and else with what its parent answers;
* a name that is new is seen, at any later time, from the view it was published with and from the
  views below it, and from no others: where it was published under a view, or with it, neither the
  siblings of that view nor the views above it show it. -/
theorem views_exact_and_immutable {changes : List Change} {s : Session}
    (hs : Session.run {} changes = some s) :
    (∀ later s', s.run later = some s' →
        (∀ view < s.issued.length, ∀ id, s'.get view id = s.get view id) ∧
        ∀ id name, s.table.nameOf id = some name → s'.table.nameOf id = some name) ∧
      ∀ bindings parent s', s.step (.publish bindings parent) = some s' →
        (∀ id name, Binding.nameIn bindings id = some name → s.table.nameOf id = none →
          s'.get s.issued.length id = some name) ∧
        (∀ id, Binding.nameIn bindings id = none ∨ (s.table.nameOf id).isSome →
          s'.get s.issued.length id = s'.get parent id) ∧
        ∀ id name, Binding.nameIn bindings id = some name → s.table.nameOf id = none →
          ∀ later s'', s'.run later = some s'' →
            (∀ view < s''.issued.length,
              (s''.Below s.issued.length view → s''.get view id = some name) ∧
              (¬ s''.Below s.issued.length view → s''.get view id = none)) ∧
            ∀ view other, s''.Below view s.issued.length → other ≠ view →
              (s''.parent? other = s''.parent? view ∨ s''.Below other view) →
              s''.get other id = none := by
  obtain ⟨hsound, -⟩ := Session.sound_start.run hs
  refine ⟨fun later s' hlater => ?_, fun bindings parent s' hpublish => ⟨?_, ?_, ?_⟩⟩
  · obtain ⟨-, hkept⟩ := hsound.run hlater
    exact ⟨fun view hview id => Session.get_of_later hsound hkept hview id,
      fun id name hname => Session.nameOf_of_later hkept hname⟩
  · intro id name hname hnew
    rw [Session.get_publish hsound hpublish, hnew, if_neg (by simp), hname]
  · intro id hold
    rw [Session.get_publish hsound hpublish]
    cases hname : s.table.nameOf id with
    | some name => rfl
    | none =>
      have hunnamed : Binding.nameIn bindings id = none := by simpa [hname] using hold
      obtain ⟨issued, hissued, -⟩ := Option.map_eq_some_iff.mp hpublish
      rw [if_neg (by simp), hunnamed, Session.get_of_later hsound (Session.later_of_step hpublish)
        (Session.lt_length_of_getElem? hissued), Session.get_eq_none_of_nameOf hname]
  · intro id name hname hnew later s'' hlater
    have hsound' := hsound.step hpublish
    obtain ⟨hsound'', -⟩ := hsound'.run hlater
    have hseen := (Session.seenBelow_publish hsound hpublish hnew hname).run hsound' hlater
    refine ⟨fun view hview => ⟨hseen.seen view hview, hseen.hidden view⟩, ?_⟩
    intro view other hbelow hne hbeside
    refine hseen.hidden other fun hpath => ?_
    exact Session.not_below_of_beside hsound'' hne hbeside (hbelow.trans hpath)

/-- Two views below that of `a`; with the first of them nothing is published. -/
def nestedViews : List Change :=
  [.publish [⟨"a", "A"⟩] 0, .append ⟨"c", "C"⟩, .publish [] 1, .publish [⟨"d", "D"⟩] 1]

theorem views_exact_and_immutable_nestedViews :
    ∃ s s' s'', Session.run {} nestedViews = some s ∧
      s.step (.publish [⟨"b", "B"⟩, ⟨"a", "X"⟩, ⟨"c", "Y"⟩] 2) = some s' ∧
      s'.run [.publish [⟨"b", "Z"⟩] 3, .publish [] 4] = some s'' ∧
      s'.get 4 "b" = some "B" ∧ s'.get 4 "a" = s'.get 2 "a" ∧ s'.get 4 "c" = s'.get 2 "c" ∧
      s''.get 2 "a" = s.get 2 "a" ∧ s''.get 6 "b" = some "B" ∧ s''.get 3 "b" = none ∧
      s''.get 1 "b" = none := by
  let s := (Session.run {} nestedViews).getD {}
  let s' := (s.step (.publish [⟨"b", "B"⟩, ⟨"a", "X"⟩, ⟨"c", "Y"⟩] 2)).getD {}
  let s'' := (s'.run [.publish [⟨"b", "Z"⟩] 3, .publish [] 4]).getD {}
  have hs : Session.run {} nestedViews = some s := rfl
  have hs' : s.step (.publish [⟨"b", "B"⟩, ⟨"a", "X"⟩, ⟨"c", "Y"⟩] 2) = some s' := rfl
  have hs'' : s'.run [.publish [⟨"b", "Z"⟩] 3, .publish [] 4] = some s'' := rfl
  obtain ⟨hkept, hpublish⟩ := views_exact_and_immutable hs
  obtain ⟨hnew, hold, hlater⟩ := hpublish _ _ s' hs'
  obtain ⟨hseen, hbeside⟩ := hlater "b" "B" rfl rfl _ s'' hs''
  have hunder : s''.Below 2 s.issued.length := .child 4 2 rfl .self
  refine ⟨s, s', s'', hs, hs', hs'', hnew "b" "B" rfl rfl, hold "a" (Or.inr rfl),
    hold "c" (Or.inr rfl), ?_, ?_, ?_, ?_⟩
  · exact (hkept _ s'' (Session.run_cons.mpr ⟨s', hs', hs''⟩)).1 2 (by decide) "a"
  · exact (hseen 6 (by decide)).1 (.child 6 4 rfl .self)
  · exact hbeside 2 3 hunder (by decide) (Or.inl rfl)
  · exact hbeside 2 1 hunder (by decide) (Or.inr (.child 2 1 rfl .self))

end BlockScript
