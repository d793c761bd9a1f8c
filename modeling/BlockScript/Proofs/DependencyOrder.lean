import BlockScript.Proofs.Lists
import BlockScript.Scope.Order

/-!
# Dependency order

What a successful sort gives.  The blocks of the path are the open visits; they are all
different, so the bound on the levels is never reached.  A visit adds blocks behind those that
are done, none of them open, and every block behind what it depends on (`Order.Grown`); the
blocks of a scope are then all there, each once, in dependency order (`Order.sort_ok`).
-/

namespace BlockScript

namespace Order

variable {α : Type}

/-- What every element depends on stands before it. -/
def Ordered (dependencies : α → List α) (l : List α) : Prop :=
  ∀ l₁ x l₂, l = l₁ ++ x :: l₂ → ∀ d ∈ dependencies x, d ∈ l₁

variable {dependencies : α → List α}

theorem ordered_nil : Ordered dependencies [] := by
  intro l₁ x l₂ h
  simp at h

theorem Ordered.concat {l : List α} {x : α} (h : Ordered dependencies l)
    (hx : ∀ d ∈ dependencies x, d ∈ l) : Ordered dependencies (l ++ [x]) := by
  intro l₁ y l₂ heq d hd
  rcases List.eq_nil_or_concat l₂ with rfl | ⟨l₂', z, rfl⟩
  · obtain ⟨rfl, hxy⟩ := List.append_inj' heq rfl
    obtain rfl : x = y := by simpa using hxy
    exact hx d hd
  · have heq' : l ++ [x] = (l₁ ++ y :: l₂') ++ [z] := by simpa using heq
    obtain ⟨rfl, -⟩ := List.append_inj' heq' rfl
    exact h l₁ y l₂' rfl d hd

/-- What becomes of the blocks that are done when more of `blocks` are visited below the open
visits `path`. -/
structure Grown (dependencies : α → List α) (blocks path done done' : List α) : Prop where
  kept : ∀ y ∈ done, y ∈ done'
  nodup : done'.Nodup
  ordered : Ordered dependencies done'
  new : ∀ y ∈ done', y ∈ done ∨ (y ∈ blocks ∧ y ∉ path)

theorem Grown.refl {blocks path done : List α} (hnodup : done.Nodup)
    (hord : Ordered dependencies done) : Grown dependencies blocks path done done :=
  ⟨fun _ hy => hy, hnodup, hord, fun _ hy => Or.inl hy⟩

theorem Grown.trans {blocks path a b c : List α} (h₁ : Grown dependencies blocks path a b)
    (h₂ : Grown dependencies blocks path b c) : Grown dependencies blocks path a c where
  kept := fun y hy => h₂.kept y (h₁.kept y hy)
  nodup := h₂.nodup
  ordered := h₂.ordered
  new := fun y hy => (h₂.new y hy).elim (h₁.new y) Or.inr

theorem foldlM_grown {blocks path : List α} {visit : List α → α → Except (List α) (List α)}
    (hvisit : ∀ x ∈ blocks, ∀ done done', done.Nodup → Ordered dependencies done →
      visit done x = .ok done' → Grown dependencies blocks path done done' ∧ x ∈ done')
    {xs : List α} (hxs : xs ⊆ blocks) {done done' : List α} (hnodup : done.Nodup)
    (hord : Ordered dependencies done) (h : xs.foldlM visit done = .ok done') :
    Grown dependencies blocks path done done' ∧ ∀ x ∈ xs, x ∈ done' := by
  induction xs generalizing done with
  | nil =>
    obtain rfl : done = done' := by simpa [pure, Except.pure] using h
    exact ⟨Grown.refl hnodup hord, by simp⟩
  | cons x xs ih =>
    rw [List.foldlM_cons] at h
    cases hx : visit done x with
    | error cycle =>
      rw [hx] at h
      cases h
    | ok mid =>
      rw [hx] at h
      obtain ⟨hgrown, hxmid⟩ := hvisit x (hxs (by simp)) done mid hnodup hord hx
      obtain ⟨hrest, hall⟩ :=
        ih (fun y hy => hxs (by simp [hy])) hgrown.nodup hgrown.ordered h
      refine ⟨hgrown.trans hrest, ?_⟩
      intro y hy
      rcases List.mem_cons.mp hy with rfl | hy
      · exact hrest.kept _ hxmid
      · exact hall y hy

variable [DecidableEq α]

/-- What a visit does: nothing for a block that is done, an error for one that is open, and
otherwise it visits what the block depends on and puts the block behind. -/
theorem visit_cases (dependencies : α → List α) (fuel : Nat) (path done : List α) (x : α) :
    (x ∈ done ∧ visit dependencies (fuel + 1) path done x = .ok done) ∨
      (x ∈ path ∧ visit dependencies (fuel + 1) path done x = .error (cycleThrough path x)) ∨
      (x ∉ done ∧ x ∉ path ∧
        ((∃ cycle, (dependencies x).foldlM (visit dependencies fuel (x :: path)) done =
            .error cycle ∧ visit dependencies (fuel + 1) path done x = .error cycle) ∨
          ∃ mid, (dependencies x).foldlM (visit dependencies fuel (x :: path)) done = .ok mid ∧
            visit dependencies (fuel + 1) path done x = .ok (mid ++ [x]))) := by
  rw [visit]
  by_cases hdone : x ∈ done
  · exact Or.inl ⟨hdone, if_pos hdone⟩
  · rw [if_neg hdone]
    by_cases hopen : x ∈ path
    · exact Or.inr (Or.inl ⟨hopen, if_pos hopen⟩)
    · rw [if_neg hopen]
      refine Or.inr (Or.inr ⟨hdone, hopen, ?_⟩)
      cases (dependencies x).foldlM (visit dependencies fuel (x :: path)) done with
      | error cycle => exact Or.inl ⟨cycle, rfl, rfl⟩
      | ok mid => exact Or.inr ⟨mid, rfl, rfl⟩

/-- **A visit that succeeds** has its block done, behind all that it depends on.  The induction
is on the levels that are left; `hfuel` says that they outnumber the blocks not yet open. -/
theorem visit_ok {blocks : List α} (hclosed : ∀ b ∈ blocks, dependencies b ⊆ blocks)
    {fuel : Nat} {path done done' : List α} {x : α} (hx : x ∈ blocks) (hpath : path.Nodup)
    (hsub : path ⊆ blocks) (hfuel : blocks.length < fuel + path.length) (hnodup : done.Nodup)
    (hord : Ordered dependencies done) (h : visit dependencies fuel path done x = .ok done') :
    Grown dependencies blocks path done done' ∧ x ∈ done' := by
  induction fuel generalizing path done done' x with
  | zero =>
    have := (hpath.subperm hsub).length_le
    omega
  | succ fuel ih =>
    rcases visit_cases dependencies fuel path done x with
      ⟨hdone, heq⟩ | ⟨-, heq⟩ | ⟨hdone, hopen, ⟨cycle, -, heq⟩ | ⟨mid, hmid, heq⟩⟩ <;>
      rw [heq] at h
    · cases h
      exact ⟨Grown.refl hnodup hord, hdone⟩
    · cases h
    · cases h
    · obtain rfl : mid ++ [x] = done' := Except.ok.inj h
      have hpath' : (x :: path).Nodup := List.nodup_cons.mpr ⟨hopen, hpath⟩
      have hsub' : x :: path ⊆ blocks := List.cons_subset.mpr ⟨hx, hsub⟩
      obtain ⟨hgrown, hall⟩ := foldlM_grown
        (fun y hy d d' hd hd' hv => ih hy hpath' hsub'
          (by simp only [List.length_cons]; omega) hd hd' hv)
        (hclosed x hx) hnodup hord hmid
      have hxmid : x ∉ mid := by
        intro hmem
        rcases hgrown.new x hmem with hmem | ⟨-, hnot⟩
        · exact hdone hmem
        · exact hnot (by simp)
      refine ⟨⟨?_, ?_, hgrown.ordered.concat hall, ?_⟩, by simp⟩
      · exact fun y hy => List.mem_append_left _ (hgrown.kept y hy)
      · rw [List.nodup_append]
        refine ⟨hgrown.nodup, List.nodup_singleton _, ?_⟩
        rintro a ha b hb rfl
        rw [List.mem_singleton] at hb
        exact hxmid (hb ▸ ha)
      · intro y hy
        rcases List.mem_append.mp hy with hy | hy
        · rcases hgrown.new y hy with hy | ⟨hyb, hnot⟩
          · exact Or.inl hy
          · exact Or.inr ⟨hyb, fun hmem => hnot (List.mem_cons_of_mem _ hmem)⟩
        · obtain rfl := List.mem_singleton.mp hy
          exact Or.inr ⟨hx, hopen⟩

theorem foldlM_roots_grown {blocks : List α} (hclosed : ∀ b ∈ blocks, dependencies b ⊆ blocks)
    {xs : List α} (hxs : xs ⊆ blocks) {done done' : List α} (hnodup : done.Nodup)
    (hord : Ordered dependencies done)
    (h : xs.foldlM (visit dependencies (blocks.length + 1) []) done = .ok done') :
    Grown dependencies blocks [] done done' ∧ ∀ x ∈ xs, x ∈ done' := by
  refine foldlM_grown ?_ hxs hnodup hord h
  intro x hx done done' hd hd' hv
  exact visit_ok hclosed hx List.nodup_nil (by simp) (by simp) hd hd' hv

/-- **A sort that succeeds** gives the blocks again, each behind what it depends on. -/
theorem sort_ok {blocks order : List α} (hclosed : ∀ b ∈ blocks, dependencies b ⊆ blocks)
    (hnodup : blocks.Nodup) (h : sort dependencies blocks = .ok order) :
    order.Perm blocks ∧ Ordered dependencies order := by
  obtain ⟨hgrown, hall⟩ :=
    foldlM_roots_grown hclosed (List.Subset.refl blocks) List.nodup_nil ordered_nil h
  refine ⟨(List.perm_ext_iff_of_nodup hgrown.nodup hnodup).mpr fun x => ⟨?_, hall x⟩,
    hgrown.ordered⟩
  intro hx
  rcases hgrown.new x hx with hx | ⟨hx, -⟩
  · simp at hx
  · exact hx

end Order

namespace Scope

variable {s : Scope}

/-- What a block of a scope depends on: the producers of the scope that feed the block itself, or
a block somewhere inside it. -/
theorem mem_dependencies {id d : BlockId} :
    d ∈ s.dependencies id ↔ d ∈ s.ids ∧ ∃ c ∈ s.index.connections, c.source = d ∧
      (c.target = id ∨ (d ≠ id ∧ id ∈ s.index.ancestors c.target)) := by
  simp only [dependencies, List.mem_eraseDups, List.mem_append, List.mem_map, incoming,
    Index.incoming, List.mem_filter, readInside, contains, List.contains_iff_mem,
    Bool.and_eq_true, beq_iff_eq, bne_iff_ne]
  constructor
  · rintro (⟨c, ⟨⟨hc, htarget⟩, hmem⟩, rfl⟩ | ⟨c, ⟨hc, ⟨hmem, hne⟩, hanc⟩, rfl⟩)
    · exact ⟨hmem, c, hc, rfl, Or.inl htarget⟩
    · exact ⟨hmem, c, hc, rfl, Or.inr ⟨hne, hanc⟩⟩
  · rintro ⟨hmem, c, hc, rfl, htarget | ⟨hne, hanc⟩⟩
    · exact Or.inl ⟨c, ⟨⟨hc, htarget⟩, hmem⟩, rfl⟩
    · exact Or.inr ⟨c, ⟨hc, ⟨hmem, hne⟩, hanc⟩, rfl⟩

theorem sorted_ok {order : List BlockId} (hnodup : s.ids.Nodup) (h : s.sorted = .ok order) :
    order.Perm s.ids ∧ Order.Ordered s.dependencies order :=
  Order.sort_ok (fun _ _ _ hd => (mem_dependencies.mp hd).1) hnodup h

end Scope

end BlockScript
