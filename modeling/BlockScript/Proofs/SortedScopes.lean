import BlockScript.Proofs.DependencyOrder
import BlockScript.Proofs.Wiring
import Mathlib.Data.List.Chain
import Mathlib.Logic.Relation

/-!
# Sorting a scope

`Order.Needs` is the dependency between the blocks that are sorted.  The open visits of a sort
depend on each other in turn, innermost first, so a dependency that leads back to one of them closes
a cycle (`Order.visit_error`); and where the blocks stand in dependency order nothing comes before
itself (`Order.Ordered.acyclic`).

* `dependency_order_or_cycle`: **sorting succeeds exactly where no block depends on itself**, and
  otherwise names a cycle.

A visit puts new blocks behind those that are done, and all of them are what the visited block
depends on (`Order.Pulled`).

* `order_disturbed_only_by_dependencies`: **a block is moved forward only when something ahead of
  it depends on it.**
-/

namespace BlockScript

namespace Order

open Relation

variable {α : Type} {dependencies : α → List α} {blocks : List α}

/-- The block `x` depends on `d`. -/
def Needs (dependencies : α → List α) (blocks : List α) (x d : α) : Prop :=
  x ∈ blocks ∧ d ∈ dependencies x

/-- No block depends on itself, not even through others. -/
def Acyclic (dependencies : α → List α) (blocks : List α) : Prop :=
  ∀ x, ¬ TransGen (Needs dependencies blocks) x x

/-- A cycle in the direction of the data: it ends where it begins, goes through two blocks at least
and through none of them twice, and each block on the way depends on the one before. -/
structure IsCycle (dependencies : α → List α) (blocks cycle : List α) : Prop where
  inside : cycle ⊆ blocks
  closed : cycle.head? = cycle.getLast?
  nodup : cycle.dropLast.Nodup
  two_le : 2 ≤ cycle.dropLast.length
  linked : cycle.IsChain fun x y => x ∈ dependencies y

/-! ### Cycles -/

/-- What comes before a block in the direction of the data, it depends on. -/
theorem transGen_of_isChain {l : List α} (hinside : l ⊆ blocks)
    (h : l.IsChain fun x y => x ∈ dependencies y) :
    l.Pairwise fun x y => TransGen (Needs dependencies blocks) y x := by
  induction l with
  | nil => exact List.Pairwise.nil
  | cons x l ih =>
    have hrest := ih (fun y hy => hinside (List.mem_cons_of_mem _ hy)) h.tail
    refine List.pairwise_cons.mpr ⟨?_, hrest⟩
    cases l with
    | nil => simp
    | cons y l =>
      have hstep : Needs dependencies blocks y x :=
        ⟨hinside (by simp), (List.isChain_cons_cons.mp h).1⟩
      intro z hz
      rcases List.mem_cons.mp hz with rfl | hz
      · exact .single hstep
      · exact .tail ((List.pairwise_cons.mp hrest).1 z hz) hstep

theorem IsCycle.not_acyclic {cycle : List α} (h : IsCycle dependencies blocks cycle) :
    ¬ Acyclic dependencies blocks := by
  intro hacyclic
  have hlen := h.two_le
  rcases List.eq_nil_or_concat cycle with rfl | ⟨front, z, rfl⟩
  · simp at hlen
  · rw [List.concat_eq_append] at h hlen
    rw [List.dropLast_concat] at hlen
    cases front with
    | nil => simp at hlen
    | cons x front =>
      have hclosed := h.closed
      rw [List.getLast?_concat] at hclosed
      obtain rfl : x = z := Option.some.inj hclosed
      have hpairs := transGen_of_isChain h.inside h.linked
      rw [List.cons_append, List.pairwise_cons] at hpairs
      exact hacyclic x (hpairs.1 x (by simp))

/-- In a list in dependency order, what a block depends on stands before it, also through others. -/
theorem Ordered.mem_of_transGen {l front back : List α} {x d : α} (h : Ordered dependencies l)
    (hl : l = front ++ x :: back) (hd : TransGen (Needs dependencies blocks) x d) : d ∈ front := by
  induction hd with
  | single hstep => exact h front x back hl _ hstep.2
  | tail _ hstep ih =>
    obtain ⟨l₁, l₂, rfl⟩ := List.append_of_mem ih
    exact List.mem_append_left _ (h l₁ _ (l₂ ++ x :: back) (by simp [hl]) _ hstep.2)

theorem Ordered.acyclic {l : List α} (h : Ordered dependencies l) (hnodup : l.Nodup)
    (hall : blocks ⊆ l) : Acyclic dependencies blocks := by
  intro x hcycle
  obtain ⟨d, hstep, -⟩ := TransGen.head'_iff.mp hcycle
  obtain ⟨front, back, rfl⟩ := List.append_of_mem (hall hstep.1)
  have hmem := h.mem_of_transGen rfl hcycle
  exact (List.nodup_append.mp hnodup).2.2 x hmem x (by simp) rfl

theorem exists_of_foldlM_error {β ε : Type} {f : β → α → Except ε β} {l : List α} {b : β} {e : ε}
    (h : l.foldlM f b = .error e) : ∃ a ∈ l, ∃ b', f b' a = .error e := by
  induction l generalizing b with
  | nil => cases h
  | cons a l ih =>
    rw [List.foldlM_cons] at h
    cases ha : f b a with
    | error e' =>
      rw [ha] at h
      cases h
      exact ⟨a, by simp, b, ha⟩
    | ok b' =>
      rw [ha] at h
      obtain ⟨a', ha', hb'⟩ := ih h
      exact ⟨a', by simp [ha'], hb'⟩

section

variable [DecidableEq α]

theorem takeWhile_ne_append {front back : List α} {x : α} (hx : x ∉ front) :
    (front ++ x :: back).takeWhile (· ≠ x) = front := by
  rw [List.takeWhile_append_of_pos, List.takeWhile_cons_of_neg (by simp), List.append_nil]
  intro y hy
  simp only [ne_eq, decide_eq_true_eq]
  rintro rfl
  exact hx hy

theorem isCycle_cycleThrough (hirrefl : ∀ b ∈ blocks, b ∉ dependencies b) {path : List α} {x : α}
    (hinside : x :: path ⊆ blocks) (hpath : path.Nodup)
    (hlinked : (x :: path).IsChain fun a b => a ∈ dependencies b) (hx : x ∈ path) :
    IsCycle dependencies blocks (cycleThrough path x) := by
  obtain ⟨front, back, rfl, hfront⟩ := List.eq_append_cons_of_mem hx
  rw [cycleThrough, takeWhile_ne_append hfront]
  have hsplit : x :: (front ++ x :: back) = (x :: front ++ [x]) ++ back := by simp
  rw [hsplit] at hinside hlinked
  have hchain := hlinked.left_of_append
  refine ⟨(List.append_subset.mp hinside).1, by rw [List.getLast?_concat]; rfl, ?_, ?_, hchain⟩
  · rw [List.dropLast_concat, List.nodup_cons]
    exact ⟨hfront, (List.nodup_append.mp hpath).1⟩
  · rw [List.dropLast_concat, List.length_cons]
    -- a block does not depend on itself, so there is another one on the way
    cases front with
    | nil =>
      refine absurd ?_ (hirrefl x (hinside (by simp)))
      simpa using hchain
    | cons y front => simp

/-- **A visit that fails names a cycle.**  The induction is on the levels that are left; `hlinked`
says that each open visit was begun for the one around it, and the visit of `x` for the innermost
one. -/
theorem visit_error (hclosed : ∀ b ∈ blocks, dependencies b ⊆ blocks)
    (hirrefl : ∀ b ∈ blocks, b ∉ dependencies b) {fuel : Nat} {path done cycle : List α} {x : α}
    (hinside : x :: path ⊆ blocks) (hpath : path.Nodup)
    (hlinked : (x :: path).IsChain fun a b => a ∈ dependencies b)
    (h : visit dependencies fuel path done x = .error cycle) :
    IsCycle dependencies blocks cycle := by
  induction fuel generalizing path done x with
  | zero => cases h
  | succ fuel ih =>
    rcases visit_cases dependencies fuel path done x with
      ⟨-, heq⟩ | ⟨hopen, heq⟩ | ⟨-, hopen, ⟨cycle', hbelow, heq⟩ | ⟨mid, -, heq⟩⟩ <;>
      rw [heq] at h
    · cases h
    · cases h
      exact isCycle_cycleThrough hirrefl hinside hpath hlinked hopen
    · cases h
      obtain ⟨d, hd, done', hvisit⟩ := exists_of_foldlM_error hbelow
      have hd' : d ∈ blocks := hclosed x (hinside (by simp)) hd
      exact ih (List.cons_subset.mpr ⟨hd', hinside⟩) (List.nodup_cons.mpr ⟨hopen, hpath⟩)
        (List.isChain_cons_cons.mpr ⟨hd, hlinked⟩) hvisit
    · cases h

theorem sort_error (hclosed : ∀ b ∈ blocks, dependencies b ⊆ blocks)
    (hirrefl : ∀ b ∈ blocks, b ∉ dependencies b) {cycle : List α}
    (h : sort dependencies blocks = .error cycle) : IsCycle dependencies blocks cycle := by
  obtain ⟨x, hx, done, hvisit⟩ := exists_of_foldlM_error h
  exact visit_error hclosed hirrefl (by simpa using hx) List.nodup_nil
    (List.isChain_singleton x) hvisit

/-- **Sorting succeeds exactly where no block depends on itself.** -/
theorem sort_ok_iff (hclosed : ∀ b ∈ blocks, dependencies b ⊆ blocks)
    (hirrefl : ∀ b ∈ blocks, b ∉ dependencies b) (hnodup : blocks.Nodup) :
    (∃ order, sort dependencies blocks = .ok order) ↔ Acyclic dependencies blocks := by
  constructor
  · rintro ⟨order, h⟩
    obtain ⟨hperm, hord⟩ := sort_ok hclosed hnodup h
    exact hord.acyclic (hperm.nodup_iff.mpr hnodup) hperm.symm.subset
  · intro hacyclic
    cases h : sort dependencies blocks with
    | ok order => exact ⟨order, rfl⟩
    | error cycle => exact absurd hacyclic (sort_error hclosed hirrefl h).not_acyclic

end

end Order

namespace Scope

theorem dependencies_subset (s : Scope) (b : BlockId) : s.dependencies b ⊆ s.ids :=
  fun _ hd => (mem_dependencies.mp hd).1

theorem not_mem_dependencies {s : Scope} (hwired : ∀ c ∈ s.index.connections, c.source ≠ c.target)
    (b : BlockId) : b ∉ s.dependencies b := by
  intro hmem
  obtain ⟨-, c, hc, hsource, htarget | ⟨hne, -⟩⟩ := mem_dependencies.mp hmem
  · exact hwired c hc (hsource.trans htarget.symm)
  · exact hne rfl

end Scope

/-- **A scope of different blocks has a dependency order, or a cycle is found in it.**  It is sorted
if and only if no block depends on itself through others; the order has every block once and behind
all that it depends on.  Otherwise the answer is a cycle of two blocks or more, in the direction of
the data. -/
theorem dependency_order_or_cycle (s : Snapshot) {ids : List BlockId} (hnodup : ids.Nodup) :
    let scope : Scope := ⟨s.index, ids⟩
    ((∃ order, scope.sorted = .ok order) ↔ Order.Acyclic scope.dependencies ids) ∧
      (∀ order, scope.sorted = .ok order →
        order.Perm ids ∧ Order.Ordered scope.dependencies order) ∧
      (¬ Order.Acyclic scope.dependencies ids →
        ∃ cycle, scope.sorted = .error cycle ∧ Order.IsCycle scope.dependencies ids cycle) := by
  intro scope
  have hclosed : ∀ b ∈ ids, scope.dependencies b ⊆ ids := fun b _ => scope.dependencies_subset b
  have hirrefl : ∀ b ∈ ids, b ∉ scope.dependencies b := by
    intro b _
    refine Scope.not_mem_dependencies (fun c hc => ?_) b
    obtain ⟨-, source, target, -, -, hne, -⟩ := Snapshot.mem_wiring_accepted hc
    exact hne
  have hiff := Order.sort_ok_iff hclosed hirrefl hnodup
  refine ⟨hiff, fun order h => Scope.sorted_ok hnodup h, fun hcyclic => ?_⟩
  cases h : scope.sorted with
  | ok order => exact absurd (hiff.mp ⟨order, h⟩) hcyclic
  | error cycle => exact ⟨cycle, rfl, Order.sort_error hclosed hirrefl h⟩

/-- `feed` is read inside `loop`, whose result goes through `sort` back to `feed`. -/
def feedback : Snapshot where
  blocks := [
    { id := "sort", command := "Sort-Object" },
    { id := "loop", container := some (.forEach ["inner"]) },
    { id := "inner", command := "Out-Host" },
    { id := "feed", command := "Get-Content" }]
  connections := [
    { source := "feed", target := "inner" }, { source := "loop", target := "sort" },
    { source := "sort", target := "feed" }]

theorem dependency_order_or_cycle_feedback :
    feedback.index.topLevel = ["sort", "loop", "feed"] ∧
      Order.IsCycle (Scope.mk feedback.index ["sort", "loop", "feed"]).dependencies
        ["sort", "loop", "feed"] ["sort", "feed", "loop", "sort"] ∧
      Order.Acyclic (Scope.mk feedback.index ["sort", "loop"]).dependencies ["sort", "loop"] ∧
      Order.Ordered (Scope.mk feedback.index ["sort", "loop"]).dependencies ["loop", "sort"] := by
  have hcycle : (Scope.mk feedback.index ["sort", "loop", "feed"]).sorted =
      .error ["sort", "feed", "loop", "sort"] := by decide +kernel
  have horder : (Scope.mk feedback.index ["sort", "loop"]).sorted = .ok ["loop", "sort"] := by
    decide +kernel
  obtain ⟨hiff, -, hfound⟩ :=
    @dependency_order_or_cycle feedback ["sort", "loop", "feed"] (by decide)
  obtain ⟨hiff', hsorted, -⟩ := @dependency_order_or_cycle feedback ["sort", "loop"] (by decide)
  refine ⟨by decide +kernel, ?_, hiff'.mp ⟨_, horder⟩, (hsorted _ horder).2⟩
  obtain ⟨cycle, heq, hisCycle⟩ := hfound fun hacyclic => by
    obtain ⟨order, heq⟩ := hiff.mpr hacyclic
    rw [hcycle] at heq
    cases heq
  rw [hcycle] at heq
  cases heq
  exact hisCycle

/-! ### How the order changes -/

namespace Order

open Relation

variable {α : Type} {dependencies : α → List α} {blocks : List α}

/-- `a` stands before `b`. -/
def Precedes (l : List α) (a b : α) : Prop := ∃ front back, l = front ++ a :: back ∧ b ∈ back

/-- What becomes of the blocks that are done when `roots` are visited: others come behind them, each
a root or what a root depends on. -/
structure Pulled (dependencies : α → List α) (blocks roots done done' : List α) : Prop where
  kept : done <+: done'
  new : ∀ y ∈ done', y ∈ done ∨ ∃ r ∈ roots, ReflTransGen (Needs dependencies blocks) r y

theorem Pulled.refl (roots done : List α) : Pulled dependencies blocks roots done done :=
  ⟨List.prefix_refl done, fun _ hy => Or.inl hy⟩

theorem foldlM_pulled {visit : List α → α → Except (List α) (List α)} {xs : List α}
    (hvisit : ∀ x ∈ xs, ∀ done done', visit done x = .ok done' →
      Pulled dependencies blocks [x] done done')
    {done done' : List α} (h : xs.foldlM visit done = .ok done') :
    Pulled dependencies blocks xs done done' := by
  induction xs generalizing done with
  | nil =>
    obtain rfl : done = done' := by simpa [pure, Except.pure] using h
    exact Pulled.refl [] done
  | cons x xs ih =>
    rw [List.foldlM_cons] at h
    cases hx : visit done x with
    | error cycle =>
      rw [hx] at h
      cases h
    | ok mid =>
      rw [hx] at h
      have hfirst := hvisit x (by simp) done mid hx
      have hrest := ih (fun y hy => hvisit y (by simp [hy])) h
      refine ⟨hfirst.kept.trans hrest.kept, fun y hy => ?_⟩
      rcases hrest.new y hy with hmid | ⟨r, hr, hreach⟩
      · rcases hfirst.new y hmid with hdone | ⟨r, hr, hreach⟩
        · exact Or.inl hdone
        · exact Or.inr ⟨r, by simpa using Or.inl (List.mem_singleton.mp hr), hreach⟩
      · exact Or.inr ⟨r, by simp [hr], hreach⟩

variable [DecidableEq α]

/-- **A visit brings only what its block depends on**, and the block itself. -/
theorem visit_pulled (hclosed : ∀ b ∈ blocks, dependencies b ⊆ blocks) {fuel : Nat}
    {path done done' : List α} {x : α} (hx : x ∈ blocks)
    (h : visit dependencies fuel path done x = .ok done') :
    Pulled dependencies blocks [x] done done' := by
  induction fuel generalizing path done done' x with
  | zero =>
    cases h
    exact Pulled.refl [x] done
  | succ fuel ih =>
    rcases visit_cases dependencies fuel path done x with
      ⟨-, heq⟩ | ⟨-, heq⟩ | ⟨-, -, ⟨cycle, -, heq⟩ | ⟨mid, hmid, heq⟩⟩ <;>
      rw [heq] at h <;> cases h
    · exact Pulled.refl [x] done
    · have hbelow : Pulled dependencies blocks (dependencies x) done mid :=
        foldlM_pulled (fun d hd done done' hv => ih (hclosed x hx hd) hv) hmid
      refine ⟨hbelow.kept.trans (List.prefix_append _ _), fun y hy => ?_⟩
      rcases List.mem_append.mp hy with hy | hy
      · rcases hbelow.new y hy with hdone | ⟨d, hd, hreach⟩
        · exact Or.inl hdone
        · exact Or.inr ⟨x, by simp, .head ⟨hx, hd⟩ hreach⟩
      · exact Or.inr ⟨x, by simp, by rw [List.mem_singleton.mp hy]⟩

theorem exists_front_of_sort (hclosed : ∀ b ∈ blocks, dependencies b ⊆ blocks) {order : List α}
    (h : sort dependencies blocks = .ok order) {first rest : List α}
    (hblocks : blocks = first ++ rest) :
    ∃ mid, mid <+: order ∧ (∀ x ∈ first, x ∈ mid) ∧
      ∀ y ∈ mid, ∃ r ∈ first, ReflTransGen (Needs dependencies blocks) r y := by
  have hfirst : first ⊆ blocks := hblocks ▸ List.subset_append_left first rest
  have hrest : rest ⊆ blocks := hblocks ▸ List.subset_append_right first rest
  have hroots : ∀ xs ⊆ blocks, ∀ x ∈ xs, ∀ done done',
      visit dependencies (blocks.length + 1) [] done x = .ok done' →
        Pulled dependencies blocks [x] done done' :=
    fun xs hxs x hx done done' hv => visit_pulled hclosed (hxs hx) hv
  have hvisits : (first ++ rest).foldlM (visit dependencies (blocks.length + 1) []) [] =
      .ok order := by
    rw [← hblocks]
    exact h
  rw [List.foldlM_append] at hvisits
  cases hmid : first.foldlM (visit dependencies (blocks.length + 1) []) [] with
  | error cycle =>
    rw [hmid] at hvisits
    cases hvisits
  | ok mid =>
    rw [hmid] at hvisits
    refine ⟨mid, (foldlM_pulled (hroots rest hrest) hvisits).kept, ?_, fun y hy => ?_⟩
    · exact (foldlM_roots_grown hclosed hfirst List.nodup_nil ordered_nil hmid).2
    · exact ((foldlM_pulled (hroots first hfirst) hmid).new y hy).resolve_left (by simp)

/-- **A block is moved ahead of another only for something that depends on it**, the other one or a
block before that. -/
theorem exists_needs_of_moved (hclosed : ∀ b ∈ blocks, dependencies b ⊆ blocks)
    (hnodup : blocks.Nodup) {order : List α} (h : sort dependencies blocks = .ok order) {a b : α}
    (hab : Precedes blocks a b) (hba : Precedes order b a) :
    ∃ r, (r = a ∨ Precedes blocks r a) ∧ TransGen (Needs dependencies blocks) r b := by
  obtain ⟨front, back, hblocks, hb⟩ := hab
  obtain ⟨m₁, m₂, horder, ha⟩ := hba
  obtain ⟨mid, ⟨rest, hrest⟩, hall, hreached⟩ :=
    exists_front_of_sort hclosed h (show blocks = (front ++ [a]) ++ back by simp [hblocks])
  -- `a` is done by then, so `b` is
  have hbmid : b ∈ mid := by
    rcases append_split (hrest.trans horder) with ⟨l, hl⟩ | ⟨l, hl, -⟩
    · rw [hl]
      simp
    · have hnodup' := (sort_ok hclosed hnodup h).1.nodup_iff.mpr hnodup
      rw [horder, List.nodup_append] at hnodup'
      have ham₁ : a ∈ m₁ := hl ▸ List.mem_append_left l (hall a (by simp))
      exact absurd rfl (hnodup'.2.2 a ham₁ a (List.mem_cons_of_mem _ ha))
  obtain ⟨r, hr, hreach⟩ := hreached b hbmid
  refine ⟨r, ?_, ?_⟩
  · rcases List.mem_append.mp hr with hr | hr
    · obtain ⟨l₁, l₂, rfl⟩ := List.append_of_mem hr
      exact Or.inr ⟨l₁, l₂ ++ a :: back, by simp [hblocks], by simp⟩
    · exact Or.inl (List.mem_singleton.mp hr)
  · rcases reflTransGen_iff_eq_or_transGen.mp hreach with rfl | hneeds
    · rw [hblocks, ← List.singleton_append, ← List.append_assoc, List.nodup_append] at hnodup
      exact absurd rfl (hnodup.2.2 b hr b hb)
    · exact hneeds

theorem visit_of_mem_done {done : List α} {x : α} (hx : x ∈ done) (fuel : Nat) (path : List α) :
    visit dependencies fuel path done x = .ok done := by
  cases fuel with
  | zero => rfl
  | succ fuel => rw [visit, if_pos hx]

theorem foldlM_visit_of_subset {xs done : List α} (h : xs ⊆ done) (fuel : Nat) (path : List α) :
    xs.foldlM (visit dependencies fuel path) done = .ok done := by
  induction xs with
  | nil => rfl
  | cons x xs ih =>
    obtain ⟨hx, hxs⟩ := List.cons_subset.mp h
    rw [List.foldlM_cons, visit_of_mem_done hx]
    exact ih hxs

/-- **Blocks in dependency order are left as they are.**  When a block comes up, the blocks before
it are done, and all it depends on is among them. -/
theorem sort_of_ordered (hnodup : blocks.Nodup) (hord : Ordered dependencies blocks) :
    sort dependencies blocks = .ok blocks := by
  have hrun : ∀ front back, blocks = front ++ back →
      back.foldlM (visit dependencies (blocks.length + 1) []) front = .ok blocks := by
    intro front back
    induction back generalizing front with
    | nil =>
      intro heq
      rw [heq, List.append_nil]
      rfl
    | cons x back ih =>
      intro heq
      have hx : x ∉ front := by
        rw [heq, List.nodup_append] at hnodup
        exact fun hmem => hnodup.2.2 x hmem x (by simp) rfl
      have hvisit : visit dependencies (blocks.length + 1) [] front x = .ok (front ++ [x]) := by
        rw [visit, if_neg hx, if_neg List.not_mem_nil,
          foldlM_visit_of_subset (hord front x back heq)]
        rfl
      rw [List.foldlM_cons, hvisit]
      exact ih (front ++ [x]) (by simp [heq])
  exact hrun [] blocks rfl

end Order

theorem Scope.dependencies_of_perm {s : Scope} {order : List BlockId} (h : order.Perm s.ids) :
    (Scope.mk s.index order).dependencies = s.dependencies := by
  have hcontains : (Scope.mk s.index order).contains = s.contains :=
    funext fun id => h.contains_eq
  funext id
  simp only [dependencies, incoming, readInside, hcontains]

/-- **Sorting changes the order only where a dependency asks for it.**  If `b` comes ahead of `a`,
which stood before it, then `a` or a block before `a` depends on `b`, perhaps through others.  So
blocks that stand in dependency order stay as they are, and sorting the result again changes
nothing. -/
theorem order_disturbed_only_by_dependencies {s : Scope} (hnodup : s.ids.Nodup) :
    (∀ order, s.sorted = .ok order → ∀ a b, Order.Precedes s.ids a b → Order.Precedes order b a →
        ∃ r, (r = a ∨ Order.Precedes s.ids r a) ∧
          Relation.TransGen (Order.Needs s.dependencies s.ids) r b) ∧
      (Order.Ordered s.dependencies s.ids → s.sorted = .ok s.ids) ∧
      (∀ order, s.sorted = .ok order → (Scope.mk s.index order).sorted = .ok order) := by
  refine ⟨fun order h a b hab hba => ?_, Order.sort_of_ordered hnodup, fun order h => ?_⟩
  · exact Order.exists_needs_of_moved (fun b _ => s.dependencies_subset b) hnodup h hab hba
  · obtain ⟨hperm, hord⟩ := Scope.sorted_ok hnodup h
    refine Order.sort_of_ordered (hperm.nodup_iff.mpr hnodup) ?_
    rwa [Scope.dependencies_of_perm hperm]

/-- `report` reads `rows`, which `log`, between the two, has nothing to do with. -/
def lateRows : Snapshot where
  blocks := [
    { id := "report", command := "Out-Host" },
    { id := "log", command := "Add-Content" },
    { id := "rows", command := "Sort-Object" },
    { id := "load", command := "Get-Content" }]
  connections := [
    { source := "rows", target := "report" }, { source := "load", target := "rows" }]

theorem order_disturbed_only_by_dependencies_lateRows :
    (∃ r, (r = "log" ∨ Order.Precedes lateRows.index.topScope.ids r "log") ∧
        Relation.TransGen (Order.Needs lateRows.index.topScope.dependencies
          lateRows.index.topScope.ids) r "load") ∧
      (Scope.mk lateRows.index ["load", "rows", "report", "log"]).sorted =
        .ok ["load", "rows", "report", "log"] := by
  have hnodup : lateRows.index.topScope.ids.Nodup := by decide +kernel
  have hsorted : lateRows.index.topScope.sorted = .ok ["load", "rows", "report", "log"] := by
    decide +kernel
  obtain ⟨hmoved, -, hagain⟩ := order_disturbed_only_by_dependencies hnodup
  refine ⟨hmoved _ hsorted "log" "load" ⟨["report"], ["rows", "load"], by decide +kernel, by simp⟩
    ⟨[], ["rows", "report", "log"], rfl, by simp⟩, hagain _ hsorted⟩

end BlockScript
