import BlockScript.Graph.Nesting
import Mathlib.Data.List.Nodup
import Mathlib.Data.List.Perm.Subperm
import Mathlib.Data.Nat.Find
import Mathlib.Logic.Function.Iterate

/-!
# The nesting of a snapshot is a forest

`Parents.climb` walks outward from a block with a bound on its steps.  The walk is the
iteration of one function, `Parents.up`, so a block is met exactly when some number of steps
leads to it, and the first time it is met the blocks before it are all different and all
nested: that is why as many steps as there are nested blocks are enough
(`Parents.mem_ancestors`).

* `Parents.Acyclic`: no block lies inside itself.  Then the containers around a block are the
  one it lies in and those around that one (`Parents.Acyclic.ancestors_eq`).
* `Nesting.mem_foldl_adopt`: what adoption accepts was listed, exists and is not its own
  container; `Nesting.foldl_release_sublist`: setting blocks free only removes.
* `Snapshot.nesting_acyclic`: **after the blocks of the circles are set free there is no
  circle left.**
-/

namespace BlockScript

namespace Parents

variable {parents : Parents}

/-! ### Walking outward -/

/-- One step outward. -/
def up (parents : Parents) (id? : Option BlockId) : Option BlockId :=
  id?.bind fun id => (parents.lookup id).map Place.container

@[simp] theorem up_none : parents.up none = none := rfl

theorem up_some (id : BlockId) :
    parents.up (some id) = (parents.lookup id).map Place.container := rfl

theorem iterate_up_none (k : Nat) : parents.up^[k] none = none := Function.iterate_fixed rfl k

theorem mem_climb {n : Nat} {id a : BlockId} :
    a ∈ parents.climb n id ↔ ∃ k < n, parents.up^[k + 1] (some id) = some a := by
  induction n generalizing id with
  | zero => simp [climb]
  | succ n ih =>
    cases h : parents.lookup id with
    | none =>
      simp [climb, h, Function.iterate_succ_apply, up_some, iterate_up_none]
    | some place =>
      simp only [climb, h, List.mem_cons, ih]
      constructor
      · rintro (rfl | ⟨k, hk, hup⟩)
        · exact ⟨0, by omega, by simp [up_some, h]⟩
        · refine ⟨k + 1, by omega, ?_⟩
          rw [Function.iterate_succ_apply, up_some, h]
          exact hup
      · rintro ⟨k, hk, hup⟩
        rw [Function.iterate_succ_apply, up_some, h, Option.map_some] at hup
        cases k with
        | zero => exact Or.inl (Option.some.inj hup).symm
        | succ k => exact Or.inr ⟨k, by omega, hup⟩

/-- **A walk that meets no block twice is short**: each of its steps starts at another nested
block. -/
theorem steps_lt_length {id a : BlockId} {k : Nat}
    (hdiff : ∀ i j, i < j → j ≤ k → parents.up^[i] (some id) ≠ parents.up^[j] (some id))
    (hup : parents.up^[k + 1] (some id) = some a) : k < parents.length := by
  have hnodup : ((List.range (k + 1)).map fun i => parents.up^[i] (some id)).Nodup := by
    refine List.Nodup.map_on ?_ List.nodup_range
    intro i hi j hj hij
    rw [List.mem_range] at hi hj
    rcases Nat.lt_trichotomy i j with hlt | heq | hgt
    · exact absurd hij (hdiff i j hlt (by omega))
    · exact heq
    · exact absurd hij.symm (hdiff j i hgt (by omega))
  have hsub : ((List.range (k + 1)).map fun i => parents.up^[i] (some id)) ⊆
      parents.map fun entry => some entry.1 := by
    intro x hx
    obtain ⟨i, hi, rfl⟩ := List.mem_map.mp hx
    rw [List.mem_range] at hi
    -- the walk goes on after `i` steps, so it stands at a nested block there
    have hsplit : parents.up^[k - i] (parents.up (parents.up^[i] (some id))) = some a := by
      rw [← Function.iterate_succ_apply' parents.up i, ← Function.iterate_add_apply,
        show k - i + i.succ = k + 1 by omega]
      exact hup
    cases hy : parents.up^[i] (some id) with
    | none => simp [hy, iterate_up_none] at hsplit
    | some y =>
      cases hl : parents.lookup y with
      | none => simp [hy, up_some, hl, iterate_up_none] at hsplit
      | some place =>
        obtain ⟨l₁, l₂, rfl, -⟩ := List.lookup_eq_some_iff.mp hl
        simp
  have := (hnodup.subperm hsub).length_le
  simp only [List.length_map, List.length_range] at this
  omega

/-- **The containers around a block are those that some number of steps leads to.** -/
theorem mem_ancestors {id a : BlockId} :
    a ∈ parents.ancestors id ↔ ∃ k, parents.up^[k + 1] (some id) = some a := by
  constructor
  · intro h
    obtain ⟨k, -, hk⟩ := mem_climb.mp h
    exact ⟨k, hk⟩
  · intro h
    classical
    refine mem_climb.mpr ⟨Nat.find h, steps_lt_length ?_ (Nat.find_spec h), Nat.find_spec h⟩
    -- a block met twice before `a` would give a shorter way to `a`
    intro i j hij hj heq
    refine Nat.find_min h (m := Nat.find h - j + i) (by omega) ?_
    calc parents.up^[Nat.find h - j + i + 1] (some id)
        = parents.up^[Nat.find h - j + 1] (parents.up^[i] (some id)) := by
          rw [← Function.iterate_add_apply]
          congr 1
          omega
      _ = parents.up^[Nat.find h - j + 1] (parents.up^[j] (some id)) := by rw [heq]
      _ = parents.up^[Nat.find h + 1] (some id) := by
          rw [← Function.iterate_add_apply]
          congr 1
          omega
      _ = some a := Nat.find_spec h

theorem ancestors_trans {a b c : BlockId} (hab : b ∈ parents.ancestors a)
    (hbc : c ∈ parents.ancestors b) : c ∈ parents.ancestors a := by
  obtain ⟨k, hk⟩ := mem_ancestors.mp hab
  obtain ⟨l, hl⟩ := mem_ancestors.mp hbc
  refine mem_ancestors.mpr ⟨l + k + 1, ?_⟩
  rw [show l + k + 1 + 1 = l + 1 + (k + 1) by omega, Function.iterate_add_apply, hk]
  exact hl

/-- Fewer nested blocks, fewer containers around each. -/
theorem ancestors_mono {fewer : Parents}
    (h : ∀ id place, fewer.lookup id = some place → parents.lookup id = some place)
    {id a : BlockId} (ha : a ∈ fewer.ancestors id) : a ∈ parents.ancestors id := by
  have hiter : ∀ k a, fewer.up^[k] (some id) = some a → parents.up^[k] (some id) = some a := by
    intro k
    induction k with
    | zero => exact fun a ha => ha
    | succ k ih =>
      intro a ha
      rw [Function.iterate_succ_apply'] at ha ⊢
      cases hk : fewer.up^[k] (some id) with
      | none => simp [hk] at ha
      | some b =>
        rw [hk, up_some] at ha
        rw [ih b hk, up_some]
        obtain ⟨place, hplace, rfl⟩ := Option.map_eq_some_iff.mp ha
        rw [h b place hplace]
        rfl
  obtain ⟨k, hk⟩ := mem_ancestors.mp ha
  exact mem_ancestors.mpr ⟨k, hiter _ _ hk⟩

/-! ### Nestings without circles -/

/-- No block lies inside itself. -/
def Acyclic (parents : Parents) : Prop := ∀ id, id ∉ parents.ancestors id

theorem climb_eq_of_stop {n : Nat} {id : BlockId} (h : parents.up^[n + 1] (some id) = none) :
    parents.climb (n + 1) id = parents.climb n id := by
  induction n generalizing id with
  | zero =>
    cases hl : parents.lookup id with
    | none => simp [climb, hl]
    | some place => simp [up_some, hl] at h
  | succ n ih =>
    rw [climb, climb]
    cases hl : parents.lookup id with
    | none => rfl
    | some place =>
      rw [Function.iterate_succ_apply, up_some, hl, Option.map_some] at h
      simp only [ih h]

/-- **Where there is no circle, the containers around a block are the one it lies in and those
around that one.** -/
theorem Acyclic.ancestors_eq (hacyc : Acyclic parents) (id : BlockId) :
    parents.ancestors id = match parents.lookup id with
      | none => []
      | some place => place.container :: parents.ancestors place.container := by
  cases hl : parents.lookup id with
  | none => cases hn : parents.length <;> simp [ancestors, hn, climb, hl]
  | some place =>
    obtain ⟨n, hn⟩ : ∃ n, parents.length = n + 1 := by
      obtain ⟨l₁, l₂, rfl, -⟩ := List.lookup_eq_some_iff.mp hl
      exact ⟨l₁.length + l₂.length, by simp; omega⟩
    have hstop : parents.up^[n + 1] (some place.container) = none := by
      cases hup : parents.up^[n + 1] (some place.container) with
      | none => rfl
      | some a =>
        have hlong : parents.up^[n + 1 + 1] (some id) = some a := by
          rw [Function.iterate_succ_apply, up_some, hl]
          exact hup
        have hlt : n + 1 < parents.length := by
          refine steps_lt_length ?_ hlong
          intro i j hij hj heq
          cases hy : parents.up^[i] (some id) with
          | none =>
            rw [show n + 1 + 1 = n + 2 - i + i by omega, Function.iterate_add_apply, hy,
              iterate_up_none] at hlong
            cases hlong
          | some y =>
            refine hacyc y (mem_ancestors.mpr ⟨j - i - 1, ?_⟩)
            rw [← hy, ← Function.iterate_add_apply, show j - i - 1 + 1 + i = j by omega, ← heq]
        omega
    rw [ancestors, hn, climb, hl]
    simp only [ancestors, hn, climb_eq_of_stop hstop]

end Parents

/-! ### Adoption and release -/

theorem Parents.lookup_eq_some_iff_mem {parents : Parents} (h : (parents.map Prod.fst).Nodup)
    {id : BlockId} {place : Place} : parents.lookup id = some place ↔ (id, place) ∈ parents := by
  constructor
  · intro hl
    obtain ⟨l₁, l₂, rfl, -⟩ := List.lookup_eq_some_iff.mp hl
    simp
  · intro hmem
    obtain ⟨l₁, l₂, rfl⟩ := List.append_of_mem hmem
    refine List.lookup_eq_some_iff.mpr ⟨l₁, l₂, rfl, ?_⟩
    intro e he
    rw [List.map_append, List.map_cons, List.nodup_append] at h
    have := h.2.2 e.1 (List.mem_map_of_mem he) id (by simp)
    simpa using this.symm

theorem Parents.lookup_eq_none_iff_not_mem {parents : Parents} {id : BlockId} :
    parents.lookup id = none ↔ id ∉ parents.map Prod.fst := by
  rw [List.lookup_eq_none_iff]
  constructor
  · intro h hmem
    obtain ⟨e, he, rfl⟩ := List.mem_map.mp hmem
    simpa using h e he
  · intro h e he
    have : id ≠ e.1 := by
      rintro rfl
      exact h (List.mem_map_of_mem he)
    simpa using this

theorem Parents.ancestors_of_lookup_none {parents : Parents} {id : BlockId}
    (h : parents.lookup id = none) : parents.ancestors id = [] := by
  cases hn : parents.length <;> simp [Parents.ancestors, hn, Parents.climb, h]

namespace Nesting

variable {blocks : List Block}

theorem find?_isNone_iff {id : BlockId} :
    (blocks.find? (·.id == id)).isNone ↔ id ∉ blocks.map Block.id := by
  simp

/-- What a listed child can do to the nesting: nothing, or it is nested as the last one. -/
theorem adopt_parents (blocks : List Block) (n : Nesting) (place : Place) (child : BlockId) :
    (n.adopt blocks (place, child)).parents = n.parents ∨
      (child ∈ blocks.map Block.id ∧ child ≠ place.container ∧ n.parents.lookup child = none ∧
        (n.adopt blocks (place, child)).parents = n.parents ++ [(child, place)]) := by
  by_cases hex : (blocks.find? (·.id == child)).isNone
  · left; simp only [adopt, if_pos hex, note]
  · by_cases hself : child = place.container
    · left; simp only [adopt, if_neg hex, if_pos hself, note]
    · cases hl : n.parents.lookup child with
      | none =>
        right
        refine ⟨?_, hself, rfl, by simp only [adopt, if_neg hex, if_neg hself, hl]⟩
        by_contra hmem
        exact hex (find?_isNone_iff.mpr hmem)
      | some owner =>
        left
        simp only [adopt, if_neg hex, if_neg hself, hl]
        split <;> rfl

/-- What is nested in the end was nested before, or was listed, exists, and is not its own
container. -/
theorem mem_foldl_adopt {listings : List (Place × BlockId)} {n : Nesting} :
    ∀ e ∈ (listings.foldl (adopt blocks) n).parents, e ∈ n.parents ∨
      ((e.2, e.1) ∈ listings ∧ e.1 ∈ blocks.map Block.id ∧ e.1 ≠ e.2.container) := by
  induction listings generalizing n with
  | nil => exact fun e he => Or.inl he
  | cons listing rest ih =>
    obtain ⟨place, child⟩ := listing
    intro e he
    rcases ih e he with hmem | ⟨hin, hex, hself⟩
    · rcases adopt_parents blocks n place child with heq | ⟨hex, hself, -, heq⟩
      · exact Or.inl (heq ▸ hmem)
      · rw [heq, List.mem_append, List.mem_singleton] at hmem
        rcases hmem with hmem | rfl
        · exact Or.inl hmem
        · exact Or.inr ⟨by simp, hex, hself⟩
    · exact Or.inr ⟨List.mem_cons_of_mem _ hin, hex, hself⟩

theorem nodup_foldl_adopt {listings : List (Place × BlockId)} {n : Nesting}
    (h : (n.parents.map Prod.fst).Nodup) :
    ((listings.foldl (adopt blocks) n).parents.map Prod.fst).Nodup := by
  induction listings generalizing n with
  | nil => exact h
  | cons listing rest ih =>
    obtain ⟨place, child⟩ := listing
    refine ih ?_
    rcases adopt_parents blocks n place child with heq | ⟨-, -, hnone, heq⟩
    · rw [heq]; exact h
    · rw [heq, List.map_append, List.nodup_append]
      refine ⟨h, List.nodup_singleton _, ?_⟩
      intro a ha b hb
      obtain rfl : b = child := by simpa using hb
      rintro rfl
      exact Parents.lookup_eq_none_iff_not_mem.mp hnone ha

theorem release_sublist (n : Nesting) (b : Block) :
    (n.release b).parents.Sublist n.parents := by
  by_cases h : b.id ∈ n.parents.ancestors b.id
  · simp only [release, if_pos h]
    exact List.filter_sublist
  · simp only [release, if_neg h]
    exact List.Sublist.refl _

theorem foldl_release_sublist (bs : List Block) (n : Nesting) :
    (bs.foldl release n).parents.Sublist n.parents := by
  induction bs generalizing n with
  | nil => exact List.Sublist.refl _
  | cons b bs ih => exact (ih (n.release b)).trans (release_sublist n b)

/-- A block that was looked at does not lie inside itself any more. -/
theorem not_mem_ancestors_release (n : Nesting) (b : Block) :
    b.id ∉ (n.release b).parents.ancestors b.id := by
  by_cases h : b.id ∈ n.parents.ancestors b.id
  · rw [Parents.ancestors_of_lookup_none]
    · simp
    · rw [Parents.lookup_eq_none_iff_not_mem]
      simp [release, if_pos h]
  · simpa only [release, if_neg h] using h

theorem ancestors_of_sublist {fewer parents : Parents} (hsub : fewer.Sublist parents)
    (hnodup : (parents.map Prod.fst).Nodup) {id a : BlockId} (ha : a ∈ fewer.ancestors id) :
    a ∈ parents.ancestors id := by
  refine Parents.ancestors_mono ?_ ha
  intro x place hx
  rw [Parents.lookup_eq_some_iff_mem ((hsub.map Prod.fst).nodup hnodup)] at hx
  exact (Parents.lookup_eq_some_iff_mem hnodup).mpr (hsub.subset hx)

/-- **No block that was looked at lies inside itself in the end**: what is released later takes
no part in a way back to it. -/
theorem not_mem_ancestors_foldl_release (bs : List Block) (n : Nesting)
    (hnodup : (n.parents.map Prod.fst).Nodup) :
    ∀ b ∈ bs, b.id ∉ (bs.foldl release n).parents.ancestors b.id := by
  induction bs generalizing n with
  | nil => simp
  | cons b bs ih =>
    have hnodup' : ((n.release b).parents.map Prod.fst).Nodup :=
      ((release_sublist n b).map Prod.fst).nodup hnodup
    intro c hc
    rcases List.mem_cons.mp hc with rfl | hc
    · intro hmem
      exact not_mem_ancestors_release n c
        (ancestors_of_sublist (foldl_release_sublist bs _) hnodup' hmem)
    · exact ih _ hnodup' c hc

/-! ### What nesting reports -/

/-- The finding is about a child that a zone lists in vain. -/
def isListing : Finding → Bool
  | .danglingChild .. | .selfNesting _ | .adoptedChild .. => true
  | _ => false

theorem isListing_foldl_adopt {listings : List (Place × BlockId)} {n : Nesting}
    (h : ∀ f ∈ n.findings, isListing f) :
    ∀ f ∈ (listings.foldl (adopt blocks) n).findings, isListing f := by
  refine List.foldlRecOn (motive := fun n : Nesting => ∀ f ∈ n.findings, isListing f) listings _ h
    fun n hn listing _ => ?_
  have hnote : ∀ finding, isListing finding → ∀ f ∈ (n.note finding).findings, isListing f := by
    intro finding hfinding f hf
    rcases List.mem_append.mp hf with hf | hf
    · exact hn f hf
    · exact List.mem_singleton.mp hf ▸ hfinding
  simp only [adopt]
  split
  · exact hnote _ rfl
  · split
    · exact hnote _ rfl
    · split
      · exact hn
      · split
        · exact hn
        · exact hnote _ rfl

theorem mem_foldl_release_findings {bs : List Block} {n : Nesting} {f : Finding}
    (hf : f ∈ (bs.foldl release n).findings) : f ∈ n.findings ∨ ∃ id, f = .ownAncestor id := by
  induction bs generalizing n with
  | nil => exact Or.inl hf
  | cons b bs ih =>
    rcases ih hf with hf | hown
    · rw [release] at hf
      split at hf
      · rcases List.mem_append.mp hf with hf | hf
        · exact Or.inl hf
        · exact Or.inr ⟨b.id, List.mem_singleton.mp hf⟩
      · exact Or.inl hf
    · exact Or.inr hown

end Nesting

namespace Snapshot

variable (s : Snapshot)

/-- Nesting reports children that are listed in vain, and blocks that were set free. -/
theorem mem_nesting_findings {s : Snapshot} {f : Finding} (hf : f ∈ s.nesting.findings) :
    Nesting.isListing f ∨ ∃ id, f = .ownAncestor id :=
  (Nesting.mem_foldl_release_findings hf).imp_left
    (Nesting.isListing_foldl_adopt (by simp) f)

theorem mem_listings {s : Snapshot} {place : Place} {child : BlockId} :
    (place, child) ∈ s.listings ↔
      ∃ b ∈ s.blocks, ∃ z ∈ b.zones, child ∈ z.children ∧ place = ⟨b.id, z.label⟩ := by
  simp only [listings, List.mem_flatMap, List.mem_map, Prod.mk.injEq]
  constructor
  · rintro ⟨b, hb, z, hz, c, hc, rfl, rfl⟩
    exact ⟨b, hb, z, hz, hc, rfl⟩
  · rintro ⟨b, hb, z, hz, hc, rfl⟩
    exact ⟨b, hb, z, hz, child, hc, rfl, rfl⟩

theorem nesting_parents_nodup : (s.nesting.parents.map Prod.fst).Nodup := by
  refine ((Nesting.foldl_release_sublist _ _).map Prod.fst).nodup ?_
  exact Nesting.nodup_foldl_adopt (by simp)

/-- What is nested is listed, exists, and is not its own container. -/
theorem mem_nesting_parents {s : Snapshot} {id : BlockId} {place : Place}
    (h : (id, place) ∈ s.nesting.parents) :
    (place, id) ∈ s.listings ∧ id ∈ s.blocks.map Block.id ∧ id ≠ place.container := by
  have := Nesting.mem_foldl_adopt (id, place) ((Nesting.foldl_release_sublist _ _).subset h)
  simpa using this

/-- **After the blocks of the circles are set free there is no circle left.** -/
theorem nesting_acyclic : Parents.Acyclic s.nesting.parents := by
  intro id hmem
  by_cases hid : id ∈ s.blocks.map Block.id
  · obtain ⟨b, hb, rfl⟩ := List.mem_map.mp hid
    exact Nesting.not_mem_ancestors_foldl_release s.blocks _
      (Nesting.nodup_foldl_adopt (by simp)) b hb hmem
  · rw [Parents.ancestors_of_lookup_none] at hmem
    · simp at hmem
    · rw [Parents.lookup_eq_none_iff_not_mem]
      intro hkey
      obtain ⟨⟨_, place⟩, he, rfl⟩ := List.mem_map.mp hkey
      exact hid (mem_nesting_parents he).2.1

end Snapshot

end BlockScript
