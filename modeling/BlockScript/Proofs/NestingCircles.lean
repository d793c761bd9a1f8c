import BlockScript.Proofs.CleanSnapshot
import BlockScript.Proofs.FirstConnections
import Mathlib.Logic.Relation

/-!
# Circles of containers are cut once

A block is claimed by the first zone that lists it, other than a zone of its own
(`Snapshot.claim?`), and adoption nests it there (`Nesting.lookup_foldl_adopt`).  Claims can run in
circles, and then the blocks are set free that lie inside themselves, one after the other in the
order of the snapshot, while the nesting changes under way.

What comes of it is said of the claims alone: `Snapshot.OpensCircle` is the block of a circle that
comes first in the snapshot, and a block is set free if and only if it opens its circle
(`Snapshot.CutSoFar.mem_ancestors_iff`).  A circle that has a block in front of the one looked at is
open by then, and a walk around it would have to pass the place where it was cut.
-/

namespace BlockScript

open Relation

/-! ### Circles of a relation that leads to one element at most -/

section

variable {α : Type} {r : α → α → Prop}

/-- `a` and `b` are on one circle. -/
def SameCircle (r : α → α → Prop) (a b : α) : Prop := TransGen r a b ∧ TransGen r b a

theorem SameCircle.symm {a b : α} (h : SameCircle r a b) : SameCircle r b a := ⟨h.2, h.1⟩

theorem SameCircle.trans {a b c : α} (h : SameCircle r a b) (h' : SameCircle r b c) :
    SameCircle r a c := ⟨h.1.trans h'.1, h'.2.trans h.2⟩

/-- From where a circle leads, it leads back. -/
theorem transGen_back (hr : Relator.RightUnique r) {a b : α} (hcircle : TransGen r a a)
    (h : ReflTransGen r a b) : TransGen r b a := by
  induction h with
  | refl => exact hcircle
  | @tail b c _ hbc ih =>
    obtain ⟨d, hbd, hda⟩ := TransGen.head'_iff.mp ih
    obtain rfl := hr hbc hbd
    rcases reflTransGen_iff_eq_or_transGen.mp hda with rfl | hca
    · exact hcircle
    · exact hca

end

/-! ### What comes before in a list -/

section

variable {α : Type} [DecidableEq α]

/-- The elements before the first `b`. -/
def before (l : List α) (b : α) : List α := l.takeWhile (· ≠ b)

theorem before_append {front back : List α} {b : α} (h : b ∉ front) :
    before (front ++ b :: back) b = front := by
  induction front with
  | nil => simp [before]
  | cons a front ih =>
    obtain ⟨hne, hfront⟩ := not_or.mp (fun hmem => h (List.mem_cons.mpr hmem))
    have hstep : before (a :: front ++ b :: back) b = a :: before (front ++ b :: back) b := by
      simp [before, Ne.symm hne]
    rw [hstep, ih hfront]

/-- Of two elements one comes before the other. -/
theorem mem_before_total {l : List α} {a b : α} (ha : a ∈ l) (hne : a ≠ b) :
    a ∈ before l b ∨ b ∈ before l a := by
  induction l with
  | nil => simp at ha
  | cons c l ih =>
    by_cases hca : c = a
    · subst hca
      exact Or.inl (by simp [before, hne])
    · by_cases hcb : c = b
      · subst hcb
        exact Or.inr (by simp [before, hca])
      · have hmem : a ∈ l := (List.mem_cons.mp ha).resolve_left (Ne.symm hca)
        simpa [before, hca, hcb] using (ih hmem).imp Or.inr Or.inr

end

/-! ### Claims -/

namespace Parents

variable {parents : Parents}

/-- The block lies in a zone of the container. -/
def LiesIn (parents : Parents) (b a : BlockId) : Prop :=
  (parents.lookup b).map Place.container = some a

/-- The containers around a block are those that `LiesIn` leads to. -/
theorem mem_ancestors_iff_transGen {b a : BlockId} :
    a ∈ parents.ancestors b ↔ TransGen parents.LiesIn b a := by
  rw [mem_ancestors]
  constructor
  · rintro ⟨k, hk⟩
    induction k generalizing a with
    | zero => exact .single hk
    | succ k ih =>
      rw [Function.iterate_succ_apply'] at hk
      cases hc : parents.up^[k + 1] (some b) with
      | none => simp [hc] at hk
      | some c =>
        rw [hc] at hk
        exact .tail (ih hc) hk
  · intro h
    induction h with
    | single hba => exact ⟨0, hba⟩
    | tail _ hca ih =>
      obtain ⟨k, hk⟩ := ih
      refine ⟨k + 1, ?_⟩
      rw [Function.iterate_succ_apply', hk]
      exact hca

theorem lookup_filter_ne (parents : Parents) (b x : BlockId) :
    (parents.filter (·.1 != b)).lookup x = if x = b then none else parents.lookup x := by
  induction parents with
  | nil => simp
  | cons e parents ih =>
    obtain ⟨y, place⟩ := e
    by_cases hyb : y = b
    · subst hyb
      by_cases hx : x = y
      · simpa [hx] using ih
      · simpa [hx, List.lookup_cons, beq_false_of_ne hx] using ih
    · by_cases hxy : x = y
      · simp [hxy, hyb]
      · simpa [hyb, List.lookup_cons, beq_false_of_ne hxy] using ih

theorem liesIn_rightUnique : Relator.RightUnique parents.LiesIn :=
  fun _ _ _ h h' => Option.some.inj (h.symm.trans h')

end Parents

namespace Snapshot

/-- The ids of the blocks, in order. -/
def ids (s : Snapshot) : List BlockId := s.blocks.map Block.id

/-- The first zone that lists the block, if it exists, and is not a zone of the block itself. -/
def claim? (s : Snapshot) (b : BlockId) : Option Place :=
  if b ∈ s.ids then
    (s.listings.find? fun listing => listing.2 = b ∧ listing.1.container ≠ b).map Prod.fst
  else none

/-- The block is claimed by a zone of the container. -/
def ClaimedBy (s : Snapshot) (b a : BlockId) : Prop := (s.claim? b).map Place.container = some a

/-- The block is on a circle of claims, and no other block of the circle comes before it. -/
def OpensCircle (s : Snapshot) (b : BlockId) : Prop :=
  SameCircle s.ClaimedBy b b ∧ ∀ a ∈ before s.ids b, ¬ SameCircle s.ClaimedBy a b

variable {s : Snapshot}

theorem claimedBy_rightUnique : Relator.RightUnique s.ClaimedBy :=
  fun _ _ _ h h' => Option.some.inj (h.symm.trans h')

theorem mem_ids_of_claimedBy {b a : BlockId} (h : s.ClaimedBy b a) : b ∈ s.ids := by
  by_contra hnot
  simp [ClaimedBy, claim?, hnot] at h

theorem mem_ids_of_sameCircle {a b : BlockId} (h : SameCircle s.ClaimedBy a b) : a ∈ s.ids := by
  obtain ⟨c, hac, -⟩ := TransGen.head'_iff.mp h.1
  exact mem_ids_of_claimedBy hac

/-- **Each circle is opened by one of its blocks.** -/
theorem exists_opensCircle {b : BlockId} (h : SameCircle s.ClaimedBy b b) :
    ∃ o, SameCircle s.ClaimedBy o b ∧ s.OpensCircle o := by
  classical
  have hsome : (s.ids.find? fun a => SameCircle s.ClaimedBy a b).isSome :=
    List.find?_isSome.mpr ⟨b, mem_ids_of_sameCircle h, by simpa using h⟩
  obtain ⟨o, ho⟩ := Option.isSome_iff_exists.mp hsome
  obtain ⟨hcircle, front, back, hids, hfront⟩ := List.find?_eq_some_iff_append.mp ho
  have hob : SameCircle s.ClaimedBy o b := of_decide_eq_true hcircle
  refine ⟨o, hob, hob.trans hob.symm, fun a ha hao => ?_⟩
  have hnot : o ∉ front := fun hmem => by simpa [hob] using hfront o hmem
  rw [hids, before_append hnot] at ha
  simpa [hao.trans hob] using hfront a ha

theorem eq_of_opensCircle {a b : BlockId} (ha : s.OpensCircle a) (hb : s.OpensCircle b)
    (h : SameCircle s.ClaimedBy a b) : a = b := by
  by_contra hne
  rcases mem_before_total (mem_ids_of_sameCircle h) hne with hmem | hmem
  · exact hb.2 a hmem h
  · exact ha.2 b hmem h.symm

end Snapshot

/-! ### Adoption -/

namespace Nesting

variable {blocks : List Block}

theorem lookup_adopt_of_ne (n : Nesting) (place : Place) {child b : BlockId} (hne : b ≠ child) :
    (n.adopt blocks (place, child)).parents.lookup b = n.parents.lookup b := by
  rcases adopt_parents blocks n place child with heq | ⟨-, -, -, heq⟩
  · rw [heq]
  · have hbeq : (b == child) = false := beq_false_of_ne hne
    simp [heq, List.lookup_append, List.lookup_cons, hbeq]

theorem lookup_adopt_self (n : Nesting) (place : Place) (b : BlockId) :
    (n.adopt blocks (place, b)).parents.lookup b = (n.parents.lookup b).or
      (if b ∈ blocks.map Block.id ∧ place.container ≠ b then some place else none) := by
  by_cases hmem : b ∈ blocks.map Block.id
  · have hex : (blocks.find? (·.id == b)).isNone = false := by
      rw [← Bool.not_eq_true, find?_isNone_iff, not_not]
      exact hmem
    by_cases hself : b = place.container
    · rw [if_neg (fun h => h.2 hself.symm), Option.or_none]
      simp only [adopt, hex, Bool.false_eq_true, if_false, if_pos hself, note]
    · rw [if_pos ⟨hmem, Ne.symm hself⟩]
      cases hl : n.parents.lookup b with
      | none => simp [adopt, hex, hself, hl, List.lookup_append]
      | some owner =>
        simp only [adopt, hex, Bool.false_eq_true, if_false, if_neg hself, hl, Option.some_or]
        split <;> exact hl
  · have hex : (blocks.find? (·.id == b)).isNone := find?_isNone_iff.mpr hmem
    rw [if_neg (fun h => hmem h.1), Option.or_none]
    simp only [adopt, hex, if_true, note]

/-- **Adoption nests each block where it is claimed first.** -/
theorem lookup_foldl_adopt (listings : List (Place × BlockId)) (n : Nesting) (b : BlockId) :
    (listings.foldl (adopt blocks) n).parents.lookup b = (n.parents.lookup b).or
      (if b ∈ blocks.map Block.id then
        (listings.find? fun listing => listing.2 = b ∧ listing.1.container ≠ b).map Prod.fst
      else none) := by
  induction listings generalizing n with
  | nil => simp
  | cons listing rest ih =>
    obtain ⟨place, child⟩ := listing
    rw [List.foldl_cons, ih]
    by_cases hb : b = child
    · subst hb
      rw [lookup_adopt_self, Option.or_assoc]
      by_cases hmem : b ∈ blocks.map Block.id
      · by_cases hself : place.container = b <;> simp [hmem, hself]
      · simp [hmem]
    · rw [lookup_adopt_of_ne n place hb]
      simp [Ne.symm hb]

end Nesting

namespace Snapshot

variable {s : Snapshot}

/-- The nesting before any block is set free. -/
def adopted (s : Snapshot) : Nesting := s.listings.foldl (Nesting.adopt s.blocks) {}

theorem lookup_adopted (s : Snapshot) (b : BlockId) :
    s.adopted.parents.lookup b = s.claim? b := by
  rw [adopted, Nesting.lookup_foldl_adopt]
  rfl

theorem liesIn_adopted : s.adopted.parents.LiesIn = s.ClaimedBy := by
  funext b a
  rw [Parents.LiesIn, lookup_adopted, ClaimedBy]

instance (a b : BlockId) : Decidable (SameCircle s.ClaimedBy a b) :=
  decidable_of_iff (b ∈ s.adopted.parents.ancestors a ∧ a ∈ s.adopted.parents.ancestors b) (by
    rw [Parents.mem_ancestors_iff_transGen, Parents.mem_ancestors_iff_transGen, liesIn_adopted]
    rfl)

instance (b : BlockId) : Decidable (s.OpensCircle b) := inferInstanceAs (Decidable (_ ∧ _))

/-! ### Setting blocks free -/

/-- The nesting after the blocks `done` were looked at: those of them that open a circle are free,
and all others lie where they are claimed. -/
def CutSoFar (s : Snapshot) (done : List BlockId) (now : Parents) : Prop :=
  ∀ x, now.lookup x = if x ∈ done ∧ s.OpensCircle x then none else s.claim? x

namespace CutSoFar

variable {done rest : List BlockId} {now : Parents} {b : BlockId}

theorem claimedBy (h : s.CutSoFar done now) {x y : BlockId} (hxy : now.LiesIn x y) :
    s.ClaimedBy x y := by
  rw [Parents.LiesIn, h x] at hxy
  split at hxy
  · cases hxy
  · exact hxy

theorem liesIn (h : s.CutSoFar done now) {x y : BlockId}
    (hx : ¬ (x ∈ done ∧ s.OpensCircle x)) (hxy : s.ClaimedBy x y) : now.LiesIn x y := by
  rw [Parents.LiesIn, h x, if_neg hx]
  exact hxy

/-- Where a walk leads back to `b`, it is the walk along the claims. -/
theorem follows (h : s.CutSoFar done now) (hcircle : TransGen now.LiesIn b b) {x : BlockId}
    (hx : ReflTransGen s.ClaimedBy b x) : ReflTransGen now.LiesIn b x := by
  induction hx with
  | refl => exact .refl
  | tail _ hxy ih =>
    obtain ⟨z, hxz, -⟩ :=
      TransGen.head'_iff.mp (transGen_back Parents.liesIn_rightUnique hcircle ih)
    obtain rfl := claimedBy_rightUnique hxy (h.claimedBy hxz)
    exact ih.tail hxz

/-- **One step**: the next block lies inside itself if and only if it opens a circle of claims. -/
theorem mem_ancestors_iff (h : s.CutSoFar done now) (hids : s.ids = done ++ b :: rest)
    (hb : b ∉ done) : b ∈ now.ancestors b ↔ s.OpensCircle b := by
  have hbefore : before s.ids b = done := by rw [hids, before_append hb]
  rw [Parents.mem_ancestors_iff_transGen]
  constructor
  · intro hcircle
    have hclaims : TransGen s.ClaimedBy b b := TransGen.mono (fun _ _ => h.claimedBy) b b hcircle
    refine ⟨⟨hclaims, hclaims⟩, fun a ha hab => ?_⟩
    -- the block that opens the circle was looked at, so the walk from `b` ends there
    obtain ⟨o, hoa, ho⟩ := exists_opensCircle (hab.trans hab.symm)
    have hob := hoa.trans hab
    have hne : o ≠ b := by
      rintro rfl
      exact ho.2 a ha hab
    have hdone : o ∈ done := by
      rw [← hbefore]
      refine (mem_before_total (mem_ids_of_sameCircle hob) hne).resolve_right fun hmem => ?_
      exact ho.2 b hmem hob.symm
    obtain ⟨z, hoz, -⟩ := TransGen.head'_iff.mp
      (transGen_back Parents.liesIn_rightUnique hcircle (h.follows hcircle hob.2.to_reflTransGen))
    rw [Parents.LiesIn, h o, if_pos ⟨hdone, ho⟩] at hoz
    cases hoz
  · rintro ⟨⟨hcircle, -⟩, hfirst⟩
    -- no block of the circle was looked at, so the walk along the claims is open
    have hwalk : ∀ x, TransGen s.ClaimedBy b x → TransGen now.LiesIn b x := by
      intro x hx
      induction hx with
      | single hbx =>
        exact .single (h.liesIn (fun hcut => hb hcut.1) hbx)
      | @tail x y hbx hxy ih =>
        refine ih.tail (h.liesIn (fun hcut => ?_) hxy)
        rw [← hbefore] at hcut
        exact hfirst x hcut.1
          ⟨transGen_back claimedBy_rightUnique hcircle hbx.to_reflTransGen, hbx⟩
    exact hwalk b hcircle

theorem release {block : Block} {n : Nesting} (h : s.CutSoFar done n.parents)
    (hids : s.ids = done ++ block.id :: rest) (hb : block.id ∉ done) :
    s.CutSoFar (done ++ [block.id]) (n.release block).parents ∧
      (n.release block).findings =
        n.findings ++ if s.OpensCircle block.id then [.ownAncestor block.id] else [] := by
  rw [Nesting.release]
  by_cases hopens : s.OpensCircle block.id
  · rw [if_pos ((h.mem_ancestors_iff hids hb).mpr hopens)]
    refine ⟨fun x => ?_, by rw [if_pos hopens]⟩
    rw [Parents.lookup_filter_ne, h x]
    by_cases hx : x = block.id
    · simp [hx, hopens]
    · simp [hx]
  · rw [if_neg (mt (h.mem_ancestors_iff hids hb).mp hopens)]
    refine ⟨fun x => ?_, by rw [if_neg hopens, List.append_nil]⟩
    rw [h x]
    by_cases hx : x = block.id
    · simp [hx, hopens]
    · simp [hx]

/-- **A whole run**: in the end the blocks that open a circle are free, and of each of them one
finding was made, in order. -/
theorem foldl_release {bs : List Block} {n : Nesting} (h : s.CutSoFar done n.parents)
    (hids : s.ids = done ++ bs.map Block.id) (hnodup : s.ids.Nodup) :
    s.CutSoFar s.ids (bs.foldl Nesting.release n).parents ∧
      (bs.foldl Nesting.release n).findings = n.findings ++
        ((bs.map Block.id).filter s.OpensCircle).map .ownAncestor := by
  induction bs generalizing done n with
  | nil =>
    rw [List.map_nil, List.append_nil] at hids
    exact ⟨hids ▸ h, by simp⟩
  | cons block bs ih =>
    rw [List.map_cons] at hids
    have hb : block.id ∉ done := by
      rw [hids] at hnodup
      exact fun hmem => (List.nodup_append.mp hnodup).2.2 _ hmem _ List.mem_cons_self rfl
    obtain ⟨hcut, hfindings⟩ := h.release hids hb
    obtain ⟨hend, hfindings'⟩ := ih hcut (by rw [hids, List.append_assoc]; rfl)
    refine ⟨hend, ?_⟩
    rw [List.foldl_cons, hfindings', hfindings, List.append_assoc]
    by_cases hopens : s.OpensCircle block.id <;> simp [hopens]

end CutSoFar

/-- A block lies where it is claimed, unless it opens a circle; then it is free, and that is
said. -/
theorem Valid.cut_nesting (hs : s.Valid) :
    (∀ b, s.nesting.parents.lookup b = if s.OpensCircle b then none else s.claim? b) ∧
      s.nesting.findings = s.adopted.findings ++ (s.ids.filter s.OpensCircle).map .ownAncestor := by
  have hstart : s.CutSoFar [] s.adopted.parents := fun x => by simp [lookup_adopted]
  obtain ⟨hcut, hfindings⟩ :=
    @CutSoFar.foldl_release s [] s.blocks s.adopted hstart rfl hs.ids_nodup
  refine ⟨fun b => (hcut b).trans ?_, hfindings⟩
  by_cases hopens : s.OpensCircle b
  · rw [if_pos ⟨mem_ids_of_sameCircle hopens.1, hopens⟩, if_pos hopens]
  · rw [if_neg (fun h => hopens h.2), if_neg hopens]

end Snapshot

/-! ### The forest -/

/-- The block that a finding says was set free. -/
def Finding.freed? : Finding → Option BlockId
  | .ownAncestor b => some b
  | _ => none

/-- What indexing says about blocks set free: one warning for each that opens a circle. -/
theorem Snapshot.Valid.map_filter_freed {s : Snapshot} (hs : s.Valid) :
    ((s.findings.filter (·.freed?.isSome)).map fun f => (f.level, f.code, f.freed?)) =
      ((s.ids.filter s.OpensCircle).map fun b => (.warning, .nestingCycle, some b)) := by
  have hwiring : s.wiring.findings.filter (·.freed?.isSome) = [] := by
    refine List.filter_eq_nil_iff.mpr fun f hf => ?_
    obtain ⟨c, hc⟩ := exists_connection_of_mem_wiring hf
    cases f with
    | ownAncestor => cases hc
    | _ => simp [Finding.freed?]
  have hadopted : s.adopted.findings.filter (·.freed?.isSome) = [] := by
    refine List.filter_eq_nil_iff.mpr fun f hf => ?_
    have hlisting := Nesting.isListing_foldl_adopt (by simp) f hf
    cases f with
    | ownAncestor => cases hlisting
    | _ => simp [Finding.freed?]
  rw [Snapshot.findings, hs.cut_nesting.2, List.filter_append, List.filter_append, hwiring,
    hadopted, List.filter_map]
  simp [Function.comp_def, Finding.freed?, Finding.level, Finding.code]

/-- The list leads from the block outward, from container to container, meets none twice and ends at
the top level. -/
structure Index.IsWayOut (g : Index) (b : BlockId) (way : List BlockId) : Prop where
  linked : (b :: way).IsChain g.parents.LiesIn
  nodup : (b :: way).Nodup
  ends : ∀ last, (b :: way).getLast? = some last → last ∈ g.topLevel

theorem Index.Consistent.isWayOut_ancestors {g : Index} (h : g.Consistent) {b : BlockId}
    (hb : b ∈ g.ids) : g.IsWayOut b (g.ancestors b) := by
  refine ⟨?_, List.nodup_cons.mpr ⟨h.acyclic b, (h.nodup_subset_ancestors b).1⟩, ?_⟩
  · generalize hP : g.parent? b = P
    induction P using h.outward generalizing b with
    | top => simp [h.ancestors_of_none hP]
    | zone place ih =>
      rw [h.ancestors_of_some hP, List.isChain_cons_cons]
      refine ⟨?_, ih (h.container_mem_ids hP) rfl⟩
      show (g.parent? b).map Place.container = some place.container
      rw [hP]
      rfl
  · generalize hP : g.parent? b = P
    induction P using h.outward generalizing b with
    | top =>
      intro last hlast
      obtain rfl : b = last := by simpa [h.ancestors_of_none hP] using hlast
      exact (h.mem_scopeAt (P := none)).mpr ⟨hb, hP⟩
    | zone place ih =>
      intro last hlast
      refine ih (h.container_mem_ids hP) rfl last ?_
      rwa [h.ancestors_of_some hP, List.getLast?_cons_cons] at hlast

/-- The top level and the zones together hold every block once. -/
theorem Snapshot.Valid.perm_topLevel_zones {s : Snapshot} (hs : s.Valid) :
    (s.index.topLevel ++ s.places.flatMap s.index.zoneChildren).Perm s.ids := by
  have hg := hs.consistent
  have htop : ∀ b, b ∈ s.index.topLevel ↔ b ∈ s.ids ∧ s.index.parent? b = none :=
    fun b => hg.mem_scopeAt (P := none)
  have hzone : ∀ place b, b ∈ s.index.zoneChildren place ↔
      b ∈ s.ids ∧ s.index.parent? b = some place :=
    fun place b => hg.mem_scopeAt (P := some place)
  refine (List.perm_ext_iff_of_nodup ?_ hs.ids_nodup).mpr fun b => ?_
  · refine List.nodup_append.mpr ⟨hg.nodup_scopeAt none, hs.nodup_zoneChildren, ?_⟩
    rintro b hb c hc rfl
    obtain ⟨place, -, hplace⟩ := List.mem_flatMap.mp hc
    have hnone := ((htop b).mp hb).2
    rw [((hzone place b).mp hplace).2] at hnone
    cases hnone
  · rw [List.mem_append, htop, List.mem_flatMap]
    constructor
    · rintro (hb | ⟨place, -, hb⟩)
      · exact hb.1
      · exact ((hzone place b).mp hb).1
    · intro hb
      cases hP : s.index.parent? b with
      | none => exact Or.inl ⟨hb, rfl⟩
      | some place =>
        have hnested := (Parents.lookup_eq_some_iff_mem s.nesting_parents_nodup).mp hP
        exact Or.inr ⟨place, mem_places_of_parent? hnested, (hzone place b).mpr ⟨hb, hP⟩⟩

/-- **Nesting gives a forest and cuts each circle once.**  A block lies where it is claimed first,
except that of each circle of claims the block that comes first in the snapshot lies nowhere; of
each such block one warning says so, in order.  Then no block lies inside itself, the containers
around a block are a way out to the top level, and the top level and the zones together hold every
block once. -/
theorem circles_cut_once {s : Snapshot} (hs : s.Valid) :
    (∀ b, s.index.parent? b = if s.OpensCircle b then none else s.claim? b) ∧
      (∀ b, SameCircle s.ClaimedBy b b → ∃! o, SameCircle s.ClaimedBy o b ∧ s.OpensCircle o) ∧
      ((s.findings.filter (·.freed?.isSome)).map fun f => (f.level, f.code, f.freed?)) =
        ((s.ids.filter s.OpensCircle).map fun b => (.warning, .nestingCycle, some b)) ∧
      (∀ b, ¬ TransGen s.index.parents.LiesIn b b) ∧
      (∀ b ∈ s.ids, s.index.IsWayOut b (s.index.ancestors b)) ∧
      (s.index.topLevel ++ s.places.flatMap s.index.zoneChildren).Perm s.ids := by
  refine ⟨hs.cut_nesting.1, fun b hb => ?_, hs.map_filter_freed, fun b hcircle => ?_,
    fun b hb => hs.consistent.isWayOut_ancestors hb, hs.perm_topLevel_zones⟩
  · obtain ⟨o, hob, ho⟩ := Snapshot.exists_opensCircle hb
    refine ⟨o, ⟨hob, ho⟩, ?_⟩
    rintro a ⟨hab, ha⟩
    exact Snapshot.eq_of_opensCircle ha ho (hab.trans hob.symm)
  · exact hs.consistent.acyclic b (Parents.mem_ancestors_iff_transGen.mpr hcircle)

/-- `a`, `b` and `c` lie in one another, and so do `x` and `y`; `a` lists itself, and `leaf` hangs
off the first circle and is listed twice. -/
def twinCircles : Snapshot where
  blocks := [
    { id := "leaf", command := "Out-File" },
    { id := "b", container := some (.ifElse "" ["c"] ["leaf"]) },
    { id := "a", container := some (.forEach ["b", "a", "leaf"]) },
    { id := "c", container := some (.forEach ["a", "a"]) },
    { id := "y", container := some (.tryCatch ["x"] []) },
    { id := "x", container := some (.forEach ["y"]) }]

theorem circles_cut_once_twinCircles :
    twinCircles.Valid ∧
      ((twinCircles.findings.filter (·.freed?.isSome)).map fun f => (f.level, f.code, f.freed?)) =
        [(.warning, .nestingCycle, some "b"), (.warning, .nestingCycle, some "y")] ∧
      twinCircles.claim? "b" = some ⟨"a", .body⟩ ∧ twinCircles.index.parent? "b" = none ∧
      twinCircles.index.parent? "a" = some ⟨"c", .body⟩ ∧
      twinCircles.index.parent? "leaf" = some ⟨"b", .elseZone⟩ ∧
      twinCircles.index.IsWayOut "a" ["c", "b"] ∧
      (twinCircles.index.topLevel ++ twinCircles.places.flatMap twinCircles.index.zoneChildren).Perm
        ["leaf", "b", "a", "c", "y", "x"] := by
  have hvalid : twinCircles.Valid := by constructor <;> decide
  obtain ⟨hparent, -, hfreed, -, hway, hperm⟩ := circles_cut_once hvalid
  have hopens : twinCircles.ids.filter twinCircles.OpensCircle = ["b", "y"] := by decide +kernel
  refine ⟨hvalid, hfreed.trans (by rw [hopens]; rfl), by decide +kernel, ?_, ?_, ?_, ?_, hperm⟩
  · exact (hparent "b").trans (by decide +kernel)
  · exact (hparent "a").trans (by decide +kernel)
  · exact (hparent "leaf").trans (by decide +kernel)
  · have hancestors : twinCircles.index.ancestors "a" = ["c", "b"] := by decide +kernel
    exact hancestors ▸ hway "a" (by decide)

end BlockScript
