import BlockScript.Naming.Binding
import Mathlib.Data.List.Nodup
import Mathlib.Tactic.Cases

/-!
# What a view shows

The table grows at its end and the first name of a block stays (`Table.nameOf_foldl_append`).  A
view that reaches no further than the table (`View.Within`) therefore shows the same for ever
(`Table.lookup_of_extends`), and publishing shows the new names beside what was shown before
(`Table.lookup_publish`).
-/

namespace BlockScript

theorem Binding.nameIn_append (l m : List Binding) (id : BlockId) :
    Binding.nameIn (l ++ m) id = (Binding.nameIn l id).or (Binding.nameIn m id) := by
  rw [Binding.nameIn, List.find?_append, Option.map_or]
  rfl

theorem Binding.nameIn_cons (b : Binding) (l : List Binding) (id : BlockId) :
    Binding.nameIn (b :: l) id = if b.blockId = id then some b.name else Binding.nameIn l id := by
  by_cases h : b.blockId = id <;> simp [Binding.nameIn, h]

theorem Binding.nameIn_set (b : Binding) (l : List Binding) (id : BlockId) :
    Binding.nameIn (Binding.set b l) id =
      if b.blockId = id then some b.name else Binding.nameIn l id := by
  induction l with
  | nil => rw [Binding.set, Binding.nameIn_cons]
  | cons c l ih =>
    by_cases h : c.blockId = b.blockId
    · rw [Binding.set, if_pos h, Binding.nameIn_cons, Binding.nameIn_cons, h]
      split <;> rfl
    · rw [Binding.set, if_neg h, Binding.nameIn_cons, Binding.nameIn_cons, ih]
      by_cases hc : c.blockId = id
      · rw [if_pos hc, if_pos hc, if_neg]
        exact fun hb => h (hc.trans hb.symm)
      · rw [if_neg hc, if_neg hc]

theorem Binding.mem_of_nameIn {l : List Binding} {id : BlockId} {name : String}
    (h : Binding.nameIn l id = some name) : ⟨id, name⟩ ∈ l := by
  obtain ⟨b, hb, rfl⟩ := Option.map_eq_some_iff.mp h
  have hid : b.blockId = id := by simpa using List.find?_some hb
  exact hid ▸ List.mem_of_find?_eq_some hb

theorem Binding.nameIn_eq_none_iff {l : List Binding} {id : BlockId} :
    Binding.nameIn l id = none ↔ id ∉ l.map Binding.blockId := by
  simp [Binding.nameIn]

theorem Binding.set_of_new {b : Binding} {l : List Binding}
    (h : Binding.nameIn l b.blockId = none) : Binding.set b l = l ++ [b] := by
  induction l with
  | nil => rfl
  | cons c l ih =>
    rw [nameIn_eq_none_iff, List.map_cons, List.mem_cons, not_or] at h
    rw [Binding.set, if_neg (Ne.symm h.1), ih (nameIn_eq_none_iff.mpr h.2), List.cons_append]

namespace Table

variable {t : Table}

/-- The name that the table has for a block. -/
def nameOf (t : Table) (id : BlockId) : Option String := Binding.nameIn t.entries id

theorem position?_eq_some {id : BlockId} {k : Nat} (h : t.position? id = some k) :
    k < t.size ∧ t.entries[k]?.map Binding.name = t.nameOf id := by
  obtain ⟨hk, hid, hbefore⟩ := List.findIdx?_eq_some_iff_getElem.mp h
  refine ⟨hk, ?_⟩
  have hfind : t.entries.find? (·.blockId == id) = some t.entries[k] := by
    refine List.find?_eq_some_iff_getElem.mpr ⟨hid, k, hk, rfl, ?_⟩
    intro j hj
    simpa using hbefore j hj
  rw [nameOf, Binding.nameIn, hfind, List.getElem?_eq_getElem hk]

theorem position?_eq_none_iff {id : BlockId} : t.position? id = none ↔ t.nameOf id = none := by
  simp [position?, nameOf, Binding.nameIn]

theorem append_cases (t : Table) (b : Binding) :
    ((t.nameOf b.blockId).isSome ∧ t.append b = t) ∨
      (t.nameOf b.blockId = none ∧ t.append b = ⟨t.entries ++ [b]⟩) := by
  cases h : t.nameOf b.blockId with
  | none =>
    right
    rw [← position?_eq_none_iff] at h
    exact ⟨rfl, by simp [append, h]⟩
  | some name =>
    left
    cases hp : t.position? b.blockId with
    | none =>
      rw [position?_eq_none_iff, h] at hp
      cases hp
    | some k => exact ⟨rfl, by simp [append, hp]⟩

theorem nameOf_append (t : Table) (b : Binding) (id : BlockId) :
    (t.append b).nameOf id = (t.nameOf id).or (if b.blockId = id then some b.name else none) := by
  rcases append_cases t b with ⟨hsome, heq⟩ | ⟨hnone, heq⟩
  · rw [heq]
    by_cases hid : b.blockId = id
    · subst hid
      rw [Option.or_of_isSome hsome]
    · rw [if_neg hid, Option.or_none]
  · rw [heq, nameOf, nameOf, Binding.nameIn_append, Binding.nameIn_cons]
    rfl

/-- **The first name of a block stays**; a scope adds names for blocks that had none. -/
theorem nameOf_foldl_append (bound : List Binding) (t : Table) (id : BlockId) :
    (bound.foldl append t).nameOf id = (t.nameOf id).or (Binding.nameIn bound id) := by
  induction bound generalizing t with
  | nil => simp [Binding.nameIn]
  | cons b bound ih =>
    rw [List.foldl_cons, ih, nameOf_append, Binding.nameIn_cons, Option.or_assoc]
    by_cases hid : b.blockId = id
    · rw [if_pos hid, if_pos hid, Option.some_or]
    · rw [if_neg hid, if_neg hid, Option.none_or]

/-- A scope whose blocks have no names yet adds all its bindings. -/
theorem foldl_append_of_new {bound : List Binding} (hnodup : (bound.map Binding.blockId).Nodup)
    {t : Table} (hnew : ∀ b ∈ bound, t.nameOf b.blockId = none) :
    (bound.foldl append t).entries = t.entries ++ bound := by
  induction bound generalizing t with
  | nil => simp
  | cons b bound ih =>
    rw [List.map_cons, List.nodup_cons] at hnodup
    rcases append_cases t b with ⟨hsome, -⟩ | ⟨-, heq⟩
    · rw [hnew b List.mem_cons_self] at hsome
      cases hsome
    · rw [List.foldl_cons, ih hnodup.2 fun c hc => ?_, heq, List.append_assoc]
      · rfl
      · have hne : b.blockId ≠ c.blockId := fun hb => hnodup.1 (hb ▸ List.mem_map_of_mem hc)
        rw [nameOf_append, hnew c (List.mem_cons_of_mem _ hc), if_neg hne]
        rfl

theorem extends_foldl_append (bound : List Binding) (t : Table) :
    t.entries <+: (bound.foldl append t).entries := by
  induction bound generalizing t with
  | nil => exact List.prefix_refl _
  | cons b bound ih =>
    refine List.IsPrefix.trans ?_ (ih (t.append b))
    rcases append_cases t b with ⟨-, heq⟩ | ⟨-, heq⟩
    · exact heq.symm ▸ List.prefix_refl _
    · exact heq.symm ▸ List.prefix_append _ _

/-- A scope adds some of its bindings, in order. -/
theorem sublist_foldl_append (bound : List Binding) (t : Table) :
    (bound.foldl append t).entries.Sublist (t.entries ++ bound) := by
  induction bound generalizing t with
  | nil => simp
  | cons b bound ih =>
    refine (ih (t.append b)).trans ?_
    rcases append_cases t b with ⟨-, heq⟩ | ⟨-, heq⟩
    · rw [heq]
      exact (List.sublist_cons_self b bound).append_left t.entries
    · rw [heq, List.append_assoc]
      exact .refl _

/-- **A table has one name at most for a block.** -/
theorem nodup_ids_foldl_append (bound : List Binding) {t : Table}
    (h : (t.entries.map Binding.blockId).Nodup) :
    ((bound.foldl append t).entries.map Binding.blockId).Nodup := by
  refine List.foldlRecOn (motive := fun t : Table => (t.entries.map Binding.blockId).Nodup) bound
    append h fun t ht b _ => ?_
  rcases append_cases t b with ⟨-, heq⟩ | ⟨hnone, heq⟩
  · rwa [heq]
  · rw [nameOf, Binding.nameIn, Option.map_eq_none_iff, List.find?_eq_none] at hnone
    rw [heq, List.map_append, List.nodup_append]
    refine ⟨ht, List.nodup_singleton _, ?_⟩
    rintro id hid id' hid' rfl
    obtain ⟨x, hx, rfl⟩ := List.mem_map.mp hid
    exact hnone x hx (by simpa using List.mem_singleton.mp hid')

end Table

/-! ### Views -/

/-- The view shows nothing behind the end of the table. -/
def View.Within (view : View) (t : Table) : Prop := ∀ span ∈ view.spans, span.stop ≤ t.size

theorem View.within_empty (t : Table) : View.Within {} t := by
  intro span hspan
  simp at hspan

namespace Table

variable {t t' : Table} {view : View}

theorem size_le_of_extends (h : t.entries <+: t'.entries) : t.size ≤ t'.size := h.length_le

theorem within_of_extends (hview : view.Within t) (h : t.entries <+: t'.entries) :
    view.Within t' := by
  intro span hspan
  have hle := size_le_of_extends h
  have := hview span hspan
  omega

/-- A block has its place in the table for ever. -/
theorem position?_of_extends (h : t.entries <+: t'.entries) {id : BlockId} {k : Nat}
    (hk : t.position? id = some k) : t'.position? id = some k := by
  obtain ⟨new, hnew⟩ := h
  rw [position?, ← hnew, List.findIdx?_append]
  rw [position?] at hk
  rw [hk, Option.some_or]

theorem size_le_of_position? (h : t.entries <+: t'.entries) {id : BlockId} {k : Nat}
    (hnone : t.position? id = none) (hk : t'.position? id = some k) : t.size ≤ k := by
  obtain ⟨new, hnew⟩ := h
  rw [position?, ← hnew, List.findIdx?_append] at hk
  rw [position?] at hnone
  rw [hnone, Option.none_or] at hk
  obtain ⟨j, -, rfl⟩ := Option.map_eq_some_iff.mp hk
  simp [size]

theorem not_covered_of_within (hview : view.Within t) {k : Nat} (hk : t.size ≤ k) :
    view.spans.any (·.covers k) = false := by
  rw [List.any_eq_false]
  intro span hspan
  have := hview span hspan
  simp only [Span.covers, Bool.and_eq_true, decide_eq_true_eq, not_and]
  omega

/-- **What a view shows never changes.** -/
theorem lookup_of_extends (hview : view.Within t) (h : t.entries <+: t'.entries) (id : BlockId) :
    t'.lookup view id = t.lookup view id := by
  cases hk : t.position? id with
  | some k =>
    obtain ⟨hlt, hname⟩ := position?_eq_some hk
    obtain ⟨-, hname'⟩ := position?_eq_some (position?_of_extends h hk)
    have hget : t'.entries[k]? = t.entries[k]? := by
      obtain ⟨new, hnew⟩ := h
      rw [← hnew, List.getElem?_append_left hlt]
    simp only [lookup, hk, position?_of_extends h hk, Option.bind_some, hget]
  | none =>
    cases hk' : t'.position? id with
    | none => simp only [lookup, hk, hk', Option.bind_none]
    | some k =>
      have hnot := not_covered_of_within hview (size_le_of_position? h hk hk')
      simp only [lookup, hk, hk', Option.bind_some, Option.bind_none, hnot, Bool.false_eq_true,
        if_false]

theorem lookup_eq_none_of_nameOf {id : BlockId} (h : t.nameOf id = none) :
    t.lookup view id = none := by
  rw [lookup, position?_eq_none_iff.mpr h]
  rfl

theorem lookup_empty (t : Table) (id : BlockId) : t.lookup {} id = none := by
  cases h : t.position? id <;> simp [lookup, h]

/-- **Publishing shows the new names beside what was shown before**: a block that had a name is
shown as the parent shows it, and any other by the name that is published for it. -/
theorem lookup_publish {parent : View} (hparent : parent.Within t) (bound : List Binding)
    (id : BlockId) :
    (t.publish bound parent).1.lookup (t.publish bound parent).2 id =
      if (t.nameOf id).isSome then t.lookup parent id else Binding.nameIn bound id := by
  have hpre : t.entries <+: (bound.foldl append t).entries := extends_foldl_append bound t
  have hname := nameOf_foldl_append bound t id
  simp only [publish, View.extended]
  by_cases hsize : (t.size : Int) = ((bound.foldl append t).size : Int)
  · -- nothing is new
    have hsame : t = bound.foldl append t := by
      have := hpre.eq_of_length (by exact_mod_cast hsize)
      cases t
      exact congrArg Table.mk this
    rw [if_pos hsize, ← hsame]
    rw [← hsame] at hname
    cases h : t.nameOf id with
    | some name => simp
    | none =>
      rw [h, Option.none_or] at hname
      simp [← hname, lookup_eq_none_of_nameOf h]
  · rw [if_neg hsize]
    cases hk : t.position? id with
    | some k =>
      obtain ⟨hlt, hnamek⟩ := position?_eq_some hk
      have hsome : (t.nameOf id).isSome := by
        rw [← hnamek, List.getElem?_eq_getElem hlt]
        rfl
      have hget : (bound.foldl append t).entries[k]? = t.entries[k]? := by
        obtain ⟨new, hnew⟩ := hpre
        rw [← hnew, List.getElem?_append_left hlt]
      have hout : Span.covers ⟨t.size, (bound.foldl append t).size⟩ k = false := by
        simp only [Span.covers, Bool.and_eq_false_iff, decide_eq_false_iff_not]
        left
        omega
      rw [if_pos hsome]
      simp only [lookup, hk, position?_of_extends hpre hk, Option.bind_some, hget,
        List.any_append, List.any_cons, List.any_nil, hout, Bool.or_false]
    | none =>
      have hnone := position?_eq_none_iff.mp hk
      rw [hnone, Option.none_or] at hname
      rw [hnone, Option.isSome_none, if_neg (by simp)]
      cases hk' : (bound.foldl append t).position? id with
      | none =>
        rw [position?_eq_none_iff, hname] at hk'
        simp [lookup, hk', position?_eq_none_iff.mpr (hname.trans hk')]
      | some k =>
        have hge := size_le_of_position? hpre hk hk'
        obtain ⟨hlt, hnamek⟩ := position?_eq_some hk'
        have hin : Span.covers ⟨t.size, (bound.foldl append t).size⟩ k = true := by
          simp only [Span.covers, Bool.and_eq_true, decide_eq_true_eq]
          omega
        simp only [lookup, hk', Option.bind_some, List.any_append, List.any_cons, hin,
          Bool.true_or, Bool.or_true, if_true, hnamek, hname]

theorem within_publish {parent : View} (hparent : parent.Within t) (bound : List Binding) :
    (t.publish bound parent).2.Within (t.publish bound parent).1 := by
  have hpre : t.entries <+: (bound.foldl append t).entries := extends_foldl_append bound t
  have hwithin := within_of_extends hparent hpre
  simp only [publish, View.extended]
  split
  · exact hwithin
  · intro span hspan
    rcases List.mem_append.mp hspan with hspan | hspan
    · exact hwithin span hspan
    · obtain rfl := List.mem_singleton.mp hspan
      exact Int.le_refl _

end Table

end BlockScript
