import BlockScript.Proofs.ScopeNames
import BlockScript.Proofs.WrittenScopes

/-!
# The names of a generation

Names are given scope by scope, in the order in which the scopes are written: `namesAfter g b l`
is the binder and the table after the scopes of `l`.  A scope names its own blocks only, so what
comes later does not touch them (`nameOf_namesAfter_append`), and **a block has a name if and only
if its scope has come up and its result is read** (`isSome_nameOf_namesAfter`).
-/

namespace BlockScript

namespace Index

variable {g : Index}

/-- Gives names to the results of a scope. -/
def nameScope (g : Index) (names : Binder × Table) (P : Option Place) : Binder × Table :=
  match (g.scopeAt P).sorted with
  | .error _ => names
  | .ok order =>
    let bound := names.1.bindScope (g.scopeAt P) ((g.scopeAt P).chains order) order
    (bound.2, bound.1.foldl Table.append names.2)

/-- The names after the scopes of a list. -/
def namesAfter (g : Index) (b : Binder) (scopes : List (Option Place)) : Binder × Table :=
  scopes.foldl g.nameScope (b, {})

theorem namesAfter_append (b : Binder) (l m : List (Option Place)) :
    g.namesAfter b (l ++ m) = m.foldl g.nameScope (g.namesAfter b l) := List.foldl_append

theorem namesAfter_concat (b : Binder) (l : List (Option Place)) (P : Option Place) :
    g.namesAfter b (l ++ [P]) = g.nameScope (g.namesAfter b l) P := namesAfter_append b l [P]

theorem nameScope_of_sorted {P : Option Place} {order : List BlockId}
    (h : (g.scopeAt P).sorted = .ok order) (names : Binder × Table) :
    g.nameScope names P =
      ((names.1.bindScope (g.scopeAt P) ((g.scopeAt P).chains order) order).2,
        (names.1.bindScope (g.scopeAt P) ((g.scopeAt P).chains order) order).1.foldl Table.append
          names.2) := by
  rw [nameScope, h]

theorem extends_nameScope (names : Binder × Table) (P : Option Place) :
    names.2.entries <+: (g.nameScope names P).2.entries := by
  rw [nameScope]
  split
  · exact List.prefix_refl _
  · exact Table.extends_foldl_append _ _

theorem extends_namesAfter (b : Binder) {l m : List (Option Place)} (h : l <+: m) :
    (g.namesAfter b l).2.entries <+: (g.namesAfter b m).2.entries := by
  obtain ⟨new, rfl⟩ := h
  induction new using List.reverseRecOn with
  | nil => simp
  | append_singleton new P ih =>
    rw [← List.append_assoc, namesAfter_concat]
    exact ih.trans (extends_nameScope _ P)

/-! ### Which blocks have names -/

/-- A scope gives names to those of its blocks that are read. -/
theorem Consistent.isSome_nameIn_iff (h : g.Consistent) {P : Option Place}
    {order : List BlockId} (hsorted : (g.scopeAt P).sorted = .ok order) (b : Binder)
    (id : BlockId) :
    (Binding.nameIn (b.bindScope (g.scopeAt P) ((g.scopeAt P).chains order) order).1 id).isSome ↔
      id ∈ (g.scopeAt P).ids ∧ (g.scopeAt P).isRead id := by
  refine (h.orderedScope hsorted).isSome_name_iff ?_ b id
  rw [scopeAt_index]
  exact fun x hx => (h.mem_scopeAt.mp hx).1

theorem Consistent.nameIn_eq_none (h : g.Consistent) {P : Option Place} {order : List BlockId}
    (hsorted : (g.scopeAt P).sorted = .ok order) (b : Binder) {id : BlockId}
    (hne : g.parent? id ≠ P) :
    Binding.nameIn (b.bindScope (g.scopeAt P) ((g.scopeAt P).chains order) order).1 id = none := by
  rw [← Option.not_isSome_iff_eq_none, h.isSome_nameIn_iff hsorted]
  exact fun hmem => hne (h.mem_scopeAt.mp hmem.1).2

theorem Consistent.nameOf_nameScope_of_ne (h : g.Consistent) (names : Binder × Table)
    {P : Option Place} {id : BlockId} (hne : g.parent? id ≠ P) :
    (g.nameScope names P).2.nameOf id = names.2.nameOf id := by
  rw [nameScope]
  split
  · rfl
  · rename_i order hsorted
    rw [Table.nameOf_foldl_append, h.nameIn_eq_none hsorted _ hne, Option.or_none]

/-- **Later scopes leave the names of a block alone.** -/
theorem Consistent.nameOf_namesAfter_append (h : g.Consistent) (b : Binder)
    (l : List (Option Place)) {m : List (Option Place)} {id : BlockId} (hid : g.parent? id ∉ m) :
    (g.namesAfter b (l ++ m)).2.nameOf id = (g.namesAfter b l).2.nameOf id := by
  induction m using List.reverseRecOn with
  | nil => rw [List.append_nil]
  | append_singleton m P ih =>
    rw [List.mem_append, List.mem_singleton, not_or] at hid
    rw [← List.append_assoc, namesAfter_concat, h.nameOf_nameScope_of_ne _ hid.2, ih hid.1]

theorem Consistent.isSome_nameOf_nameScope (h : g.Consistent) (names : Binder × Table)
    (P : Option Place) (id : BlockId) :
    ((g.nameScope names P).2.nameOf id).isSome ↔ (names.2.nameOf id).isSome ∨
      (id ∈ (g.scopeAt P).ids ∧ g.Sorts P ∧ (g.scopeAt P).isRead id) := by
  rw [nameScope]
  split
  · rename_i cycle hsorted
    have hnot : ¬ g.Sorts P := by
      rintro ⟨order, ho⟩
      rw [hsorted] at ho
      cases ho
    simp [hnot]
  · rename_i order hsorted
    rw [Table.nameOf_foldl_append, Option.isSome_or, Bool.or_eq_true, h.isSome_nameIn_iff hsorted]
    have hsorts : g.Sorts P := ⟨order, hsorted⟩
    simp [hsorts]

/-- **A block has a name if and only if its scope has come up and its result is read.** -/
theorem Consistent.isSome_nameOf_namesAfter (h : g.Consistent) (b : Binder)
    (l : List (Option Place)) (id : BlockId) :
    ((g.namesAfter b l).2.nameOf id).isSome ↔ id ∈ g.ids ∧ g.parent? id ∈ l ∧
      g.Sorts (g.parent? id) ∧ (g.scopeAt (g.parent? id)).isRead id := by
  induction l using List.reverseRecOn with
  | nil => simp [namesAfter, Table.nameOf, Binding.nameIn]
  | append_singleton l P ih =>
    rw [namesAfter_concat, h.isSome_nameOf_nameScope, ih, h.mem_scopeAt, List.mem_append,
      List.mem_singleton]
    constructor
    · rintro (⟨hid, hl, hread⟩ | ⟨⟨hid, rfl⟩, hread⟩)
      · exact ⟨hid, Or.inl hl, hread⟩
      · exact ⟨hid, Or.inr rfl, hread⟩
    · rintro ⟨hid, hl | rfl, hread⟩
      · exact Or.inl ⟨hid, hl, hread⟩
      · exact Or.inr ⟨⟨hid, rfl⟩, hread⟩

theorem Consistent.nameOf_namesAfter_eq_none (h : g.Consistent) (b : Binder)
    {l : List (Option Place)} {id : BlockId} (hid : g.parent? id ∉ l) :
    (g.namesAfter b l).2.nameOf id = none := by
  rw [← Option.not_isSome_iff_eq_none, h.isSome_nameOf_namesAfter]
  exact fun hmem => hid hmem.2.1

/-! ### The names are different -/

/-- **The names of a generation are different**, whatever the case of their letters. -/
theorem fresh_namesAfter (b : Binder) (l : List (Option Place)) :
    b.Fresh (g.namesAfter b l).2.entries (g.namesAfter b l).1 := by
  induction l using List.reverseRecOn with
  | nil => exact .nil b
  | append_singleton l P ih =>
    rw [namesAfter_concat, nameScope]
    split
    · exact ih
    · exact (ih.append (Binder.fresh_bindScope _ _ _ _)).of_subperm
        (Table.sublist_foldl_append _ _).subperm

/-- **A block has one name at most.** -/
theorem nodup_ids_namesAfter (b : Binder) (l : List (Option Place)) :
    ((g.namesAfter b l).2.entries.map Binding.blockId).Nodup := by
  induction l using List.reverseRecOn with
  | nil => exact List.nodup_nil
  | append_singleton l P ih =>
    rw [namesAfter_concat, nameScope]
    split
    · exact ih
    · exact Table.nodup_ids_foldl_append _ ih

theorem nameOf_namesAfter_ne_empty {b : Binder} {l : List (Option Place)} {id : BlockId}
    {name : String} (h : (g.namesAfter b l).2.nameOf id = some name) : name ≠ "" := by
  have hname := (g.fresh_namesAfter b l).shape _ (Binding.mem_of_nameIn h)
  rintro rfl
  exact hname.ne_nil rfl

end Index

end BlockScript
