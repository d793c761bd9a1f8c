import BlockScript.Scope.Basic
import Mathlib.Data.List.Nodup
import Mathlib.Data.List.Perm.Subperm

/-!
# Lists

What the other proofs use about lists: `eraseDups` keeps one of each element, `only?` asks for a
single element, and an element of `l.flatMap f` has its place in the part of one element of `l`.
-/

namespace BlockScript

variable {α β : Type}

/-! ### `eraseDups` -/

section

variable [BEq α] [LawfulBEq α]

theorem nodup_eraseDups : ∀ l : List α, l.eraseDups.Nodup
  | [] => List.nodup_nil
  | b :: l => by
    rw [List.eraseDups_cons, List.nodup_cons]
    exact ⟨by simp, nodup_eraseDups _⟩
termination_by l => l.length
decreasing_by exact Nat.lt_succ_of_le (List.length_filter_le _ l)

theorem eraseDups_of_nodup {l : List α} (h : l.Nodup) : l.eraseDups = l := by
  induction l with
  | nil => rfl
  | cons b l ih =>
    rw [List.nodup_cons] at h
    have hother : l.filter (fun c => !c == b) = l := by
      refine List.filter_eq_self.mpr fun c hc => ?_
      simpa using ne_of_mem_of_not_mem hc h.1
    rw [List.eraseDups_cons, hother, ih h.2]

theorem eraseDups_eq_singleton_iff {a : α} {l : List α} :
    l.eraseDups = [a] ↔ l ≠ [] ∧ ∀ b ∈ l, b = a := by
  constructor
  · intro h
    have hmem : ∀ b ∈ l, b = a := by
      intro b hb
      have hb' : b ∈ l.eraseDups := List.mem_eraseDups.mpr hb
      rw [h] at hb'
      exact List.mem_singleton.mp hb'
    refine ⟨?_, hmem⟩
    rintro rfl
    simp at h
  · rintro ⟨hne, hall⟩
    cases l with
    | nil => exact absurd rfl hne
    | cons b l =>
      obtain rfl : b = a := hall b (by simp)
      have hnone : l.filter (fun c => !c == b) = [] := by
        refine List.filter_eq_nil_iff.mpr fun c hc => ?_
        simp [hall c (List.mem_cons_of_mem b hc)]
      rw [List.eraseDups_cons, hnone, List.eraseDups_nil]

end

/-! ### `only?` -/

theorem only?_eq_some_iff {a : α} {l : List α} : Scope.only? l = some a ↔ l = [a] := by
  match l with
  | [] => simp [Scope.only?]
  | [b] => simp [Scope.only?]
  | b :: c :: l => simp [Scope.only?]

/-! ### Finding by a key -/

theorem find?_key_of_mem {κ : Type} [DecidableEq κ] {key : α → κ} {l : List α}
    (h : (l.map key).Nodup) {a : α} (ha : a ∈ l) : l.find? (key · == key a) = some a := by
  obtain ⟨l₁, l₂, rfl⟩ := List.append_of_mem ha
  refine List.find?_eq_some_iff_append.mpr ⟨by simp, l₁, l₂, rfl, ?_⟩
  intro b hb
  rw [List.map_append, List.nodup_append] at h
  have := h.2.2 (key b) (List.mem_map_of_mem hb) (key a) (by simp)
  simpa using this

/-! ### Places in a `flatMap` -/

/-- An element of `l.flatMap f` stands in the part of one element of `l`, behind the parts of
those before. -/
theorem flatMap_split {f : α → List β} {l : List α} {before after : List β} {b : β}
    (h : l.flatMap f = before ++ b :: after) :
    ∃ l₁ a l₂ front back, l = l₁ ++ a :: l₂ ∧ f a = front ++ b :: back ∧
      before = l₁.flatMap f ++ front ∧ after = back ++ l₂.flatMap f := by
  induction l generalizing before with
  | nil => simp at h
  | cons a l ih =>
    rw [List.flatMap_cons, List.append_eq_append_iff] at h
    rcases h with ⟨rest, hbefore, hrest⟩ | ⟨rest, hfa, hrest⟩
    · obtain ⟨l₁, a', l₂, front, back, rfl, hfa, rfl, rfl⟩ := ih hrest
      exact ⟨a :: l₁, a', l₂, front, back, rfl, hfa, by simp [hbefore], rfl⟩
    · cases rest with
      | nil =>
        obtain ⟨l₁, a', l₂, front, back, rfl, hfa', hfront, rfl⟩ :=
          @ih [] (by simpa using hrest.symm)
        refine ⟨a :: l₁, a', l₂, front, back, rfl, hfa', ?_, rfl⟩
        rw [List.append_nil] at hfa
        rw [List.flatMap_cons, hfa, List.append_assoc, ← hfront, List.append_nil]
      | cons c rest =>
        rw [List.cons_append, List.cons.injEq] at hrest
        obtain ⟨rfl, rfl⟩ := hrest
        exact ⟨[], a, l, before, rest, rfl, hfa, rfl, rfl⟩

theorem append_split {l m before after : List α} {a : α} (h : l ++ m = before ++ a :: after) :
    (∃ back, l = before ++ a :: back) ∨ ∃ front, before = l ++ front ∧ m = front ++ a :: after := by
  rw [List.append_eq_append_iff] at h
  rcases h with ⟨front, hbefore, hm⟩ | ⟨rest, hl, hrest⟩
  · exact Or.inr ⟨front, hbefore, hm⟩
  · cases rest with
    | nil => exact Or.inr ⟨[], by simp [hl], by simpa using hrest.symm⟩
    | cons c rest =>
      rw [List.cons_append, List.cons.injEq] at hrest
      exact Or.inl ⟨rest, by rw [hl, hrest.1]⟩

theorem append_split_left {l m before after : List α} {a : α} (h : l ++ m = before ++ a :: after)
    (ha : a ∉ m) : ∃ back, l = before ++ a :: back := by
  rcases append_split h with hl | ⟨front, -, hm⟩
  · exact hl
  · exact absurd (by rw [hm]; simp) ha

theorem append_split_right {l m before after : List α} {a : α} (h : l ++ m = before ++ a :: after)
    (ha : a ∉ l) : ∃ front, before = l ++ front ∧ m = front ++ a :: after := by
  rcases append_split h with ⟨back, hl⟩ | hm
  · exact absurd (by rw [hl]; simp) ha
  · exact hm

theorem infix_flatMap {f : α → List β} {l : List α} {a : α} (ha : a ∈ l) :
    f a <:+: l.flatMap f := by
  rw [List.flatMap_def]
  exact List.infix_of_mem_flatten (List.mem_map_of_mem ha)

/-- Where the parts have no element in common, an element tells its part. -/
theorem eq_of_mem_flatMap {f : α → List β} {l : List α} (h : (l.flatMap f).Nodup) {a a' : α}
    (ha : a ∈ l) (ha' : a' ∈ l) {b : β} (hb : b ∈ f a) (hb' : b ∈ f a') : a = a' := by
  induction l with
  | nil => simp at ha
  | cons c l ih =>
    rw [List.flatMap_cons, List.nodup_append] at h
    obtain ⟨-, hrest, hdisj⟩ := h
    rcases List.mem_cons.mp ha with rfl | hl <;> rcases List.mem_cons.mp ha' with rfl | hl'
    · rfl
    · exact absurd rfl (hdisj b hb b (List.mem_flatMap.mpr ⟨a', hl', hb'⟩))
    · exact absurd rfl (hdisj b hb' b (List.mem_flatMap.mpr ⟨a, hl, hb⟩))
    · exact ih hrest hl hl'

/-! ### Sublists -/

/-- What follows `x` in a sublist follows it in the list. -/
theorem sublist_of_cons_sublist_append {x : α} {l front back : List α} (hx : x ∉ front)
    (h : (x :: l).Sublist (front ++ x :: back)) : l.Sublist back := by
  induction front with
  | nil => exact List.cons_sublist_cons.mp h
  | cons y front ih =>
    rw [List.mem_cons, not_or] at hx
    refine ih hx.2 ?_
    rw [List.cons_append] at h
    cases h with
    | cons _ h => exact h
    | cons_cons _ h => exact absurd rfl hx.1

/-- What is before `x` in a sublist is before it in the list. -/
theorem sublist_of_concat_sublist_append {x : α} {l front back : List α} (hx : x ∉ back)
    (h : (l ++ [x]).Sublist (front ++ x :: back)) : l.Sublist front := by
  have hreverse := h.reverse
  simp only [List.reverse_append, List.reverse_cons, List.reverse_nil, List.nil_append,
    List.singleton_append, List.append_assoc] at hreverse
  exact List.reverse_sublist.mp
    (sublist_of_cons_sublist_append (fun hmem => hx (List.mem_reverse.mp hmem)) hreverse)

end BlockScript
