import BlockScript.Proofs.Layout
import BlockScript.Proofs.Scopes
import BlockScript.Proofs.StatementOrder

/-!
# Queries that can get stuck

The queries on a graph give a value whatever they are asked: a block that is not there is passed
over, and a walk ends where its bound does.  The queries of `Strict` take none of that for granted.
Before they give the value of the query they stand for, they look up every block that it meets,
which has to be there, and see that its walks have come to their ends before their bounds did.  Two
of them do the work in a way of their own: circles of the nesting are searched from block to block,
and a cycle is cut out of the path of open visits at the place where its block is found.  What goes
wrong is `Stuck`.

In a consistent graph no query gets stuck:

* `Strict.nesting_eq`: **cutting the circles of a nesting ends**, whatever the zones list.
* `Strict.ancestors_eq`, `Strict.zoneChildren_eq`, `Strict.dependencies_eq` and their like: **the
  blocks that are looked up are there**, because the connections that are followed and the
  nesting lead from block to block.
* `Strict.sorted_eq`: **a block that is being visited is on the path**, and the path, whose blocks
  are all different, does not outgrow the scope.
* `Strict.chains_eq`: **a chain ends**, since its stages are different blocks of the scope.
-/

namespace BlockScript

/-- A step that cannot be taken. -/
inductive Stuck where
  /-- A block is looked up that is not there. -/
  | unknownBlock (id : BlockId)
  /-- A block is being visited that is not on the path of open visits. -/
  | offPath (id : BlockId)
  /-- A walk goes on where its bound ends. -/
  | endless
  /-- A block is to be written that is in no chain. -/
  | noChain (id : BlockId)
  /-- A container is to be written that has no branches. -/
  | noBranches (id : BlockId)
  /-- A function is to be defined that is none. -/
  | noFunction (id : BlockId)
  /-- A zone is entered from a scope that lies as deep. -/
  | notDeeper (place : Place)
  deriving DecidableEq, Repr

/-! ### Steps that succeed -/

section

variable {m : Type → Type} [Monad m] [LawfulMonad m] {α β : Type}

theorem mapM_eq_pure {f : α → m β} {value : α → β} {l : List α}
    (h : ∀ a ∈ l, f a = pure (value a)) : l.mapM f = pure (l.map value) := by
  induction l with
  | nil => simp
  | cons a l ih =>
    rw [List.mapM_cons, h a (by simp), pure_bind, ih fun x hx => h x (by simp [hx]), pure_bind,
      List.map_cons]

/-- A run of steps succeeds when each of them does after the steps before it. -/
theorem foldlM_eq_pure {f : β → α → m β} {value : β → α → β} {l : List α} {start : β}
    (h : ∀ front a back, l = front ++ a :: back →
      f (front.foldl value start) a = pure (value (front.foldl value start) a)) :
    l.foldlM f start = pure (l.foldl value start) := by
  induction l generalizing start with
  | nil => simp
  | cons a l ih =>
    have hfirst : f start a = pure (value start a) := h [] a l rfl
    rw [List.foldlM_cons, hfirst, pure_bind, List.foldl_cons]
    refine ih ?_
    intro front b back hsplit
    exact h (a :: front) b back (by simp [hsplit])

end

namespace Strict

/-! ### Setting blocks free -/

/-- Whether the walk outward from `current` leads to `id`.  It ends at a block that lies in no
zone, at `id`, or at a block that it has met before. -/
def leadsTo (parents : Parents) (id : BlockId) :
    Nat → List BlockId → BlockId → Except Stuck Bool
  | 0, _, _ => throw .endless
  | fuel + 1, met, current => match parents.lookup current with
    | none => pure false
    | some place =>
      if place.container = id then pure true
      else if place.container ∈ met then pure false
      else leadsTo parents id fuel (place.container :: met) place.container

def release (n : Nesting) (b : Block) : Except Stuck Nesting := do
  if ← leadsTo n.parents b.id (n.parents.length + 1) [b.id] b.id then return n.release b
  else return n

def nesting (s : Snapshot) : Except Stuck Nesting :=
  s.blocks.foldlM release (s.listings.foldl (Nesting.adopt s.blocks) {})

section

variable {parents : Parents} {id : BlockId}

/-- From each block of `met` the step outward, if there is one, leads to a block of `area` other
than `id`. -/
def Confined (parents : Parents) (id : BlockId) (met area : List BlockId) : Prop :=
  ∀ v ∈ met, ∀ place, parents.lookup v = some place →
    place.container ∈ area ∧ place.container ≠ id

theorem Confined.cons {met area area' : List BlockId} {v : BlockId}
    (h : Confined parents id met area) (hsub : area ⊆ area')
    (hv : ∀ place, parents.lookup v = some place →
      place.container ∈ area' ∧ place.container ≠ id) : Confined parents id (v :: met) area' := by
  intro u hu place hplace
  rcases List.mem_cons.mp hu with rfl | hu
  · exact hv place hplace
  · obtain ⟨hmem, hne⟩ := h u hu place hplace
    exact ⟨hsub hmem, hne⟩

/-- A walk that is confined to the blocks it has met does not come back to its start. -/
theorem Confined.not_mem_ancestors {met : List BlockId} (h : Confined parents id met met)
    (hid : id ∈ met) : id ∉ parents.ancestors id := by
  have hwalk : ∀ k a, parents.up^[k + 1] (some id) = some a → a ∈ met ∧ a ≠ id := by
    intro k
    induction k with
    | zero =>
      intro a ha
      obtain ⟨place, hplace, rfl⟩ := Option.map_eq_some_iff.mp ha
      exact h id hid place hplace
    | succ k ih =>
      intro a ha
      rw [Function.iterate_succ_apply'] at ha
      cases hv : parents.up^[k + 1] (some id) with
      | none => simp [hv] at ha
      | some v =>
        rw [hv] at ha
        obtain ⟨place, hplace, rfl⟩ := Option.map_eq_some_iff.mp ha
        exact h v (ih v hv).1 place hplace
  intro hmem
  obtain ⟨k, hk⟩ := Parents.mem_ancestors.mp hmem
  exact (hwalk k id hk).2 rfl

/-- **The search for a circle ends**: each step but the last starts at another nested block.  The
walk stands at `current`, and what it met before is confined to what it has met. -/
theorem leadsTo_eq {fuel : Nat} {met : List BlockId} {current : BlockId} {k : Nat}
    (hup : parents.up^[k] (some id) = some current) (hnodup : (current :: met).Nodup)
    (hnested : met ⊆ parents.map Prod.fst) (hid : id ∈ current :: met)
    (hmet : Confined parents id met (current :: met))
    (hfuel : parents.length < fuel + met.length) :
    leadsTo parents id fuel (current :: met) current =
      pure (decide (id ∈ parents.ancestors id)) := by
  induction fuel generalizing met current k with
  | zero =>
    have := (hnodup.of_cons.subperm hnested).length_le
    rw [List.length_map] at this
    omega
  | succ fuel ih =>
    rw [leadsTo]
    cases hl : parents.lookup current with
    | none =>
      have hclosed : Confined parents id (current :: met) (current :: met) :=
        hmet.cons (List.Subset.refl _) (by simp [hl])
      simp [hclosed.not_mem_ancestors hid]
    | some place =>
      have hnext : parents.up^[k + 1] (some id) = some place.container := by
        rw [Function.iterate_succ_apply', hup, Parents.up_some, hl]
        rfl
      by_cases hback : place.container = id
      · have hmem : id ∈ parents.ancestors id := Parents.mem_ancestors.mpr ⟨k, hback ▸ hnext⟩
        simp [hback, hmem]
      · by_cases hseen : place.container ∈ current :: met
        · -- the walk has closed a circle without `id`, and stays on it
          have hclosed : Confined parents id (current :: met) (current :: met) :=
            hmet.cons (List.Subset.refl _) (by simpa [hl, hback] using hseen)
          simp [hback, hseen, hclosed.not_mem_ancestors hid]
        · simp only [if_neg hback, if_neg hseen]
          refine ih hnext ?_ ?_ ?_ ?_ ?_
          · exact List.nodup_cons.mpr ⟨hseen, hnodup⟩
          · refine List.cons_subset.mpr ⟨?_, hnested⟩
            obtain ⟨l₁, l₂, hsplit, -⟩ := List.lookup_eq_some_iff.mp hl
            rw [hsplit]
            simp
          · exact List.mem_cons_of_mem _ hid
          · exact hmet.cons (List.subset_cons_self _ _) (by simp [hl, hback])
          · rw [List.length_cons]
            omega

theorem release_eq (n : Nesting) (b : Block) : release n b = pure (n.release b) := by
  have hsearch : leadsTo n.parents b.id (n.parents.length + 1) [b.id] b.id =
      pure (decide (b.id ∈ n.parents.ancestors b.id)) := by
    refine leadsTo_eq (k := 0) rfl (List.nodup_singleton _) (List.nil_subset _) ?_ ?_ ?_
    · exact List.mem_singleton_self _
    · intro v hv
      simp at hv
    · simp
  rw [release, hsearch, pure_bind]
  by_cases h : b.id ∈ n.parents.ancestors b.id <;> simp [h, Nesting.release]

/-- **Cutting the circles of the nesting ends.** -/
theorem nesting_eq (s : Snapshot) : nesting s = pure s.nesting :=
  foldlM_eq_pure fun _ b _ _ => release_eq _ b

end

/-! ### Looking up blocks -/

/-- The block with this id, which has to be there. -/
def block (g : Index) (id : BlockId) : Except Stuck Block :=
  match g.block? id with
  | some b => pure b
  | none => throw (.unknownBlock id)

/-- The blocks with these ids. -/
def blocks (g : Index) (ids : List BlockId) : Except Stuck (List Block) := ids.mapM (block g)

/-- The ids of these blocks, read off the blocks. -/
def known (g : Index) (ids : List BlockId) : Except Stuck (List BlockId) :=
  return (← blocks g ids).map Block.id

/-- The containers around a block, innermost first.  The walk outward has come to its end when one
more step would lead no further. -/
def ancestors (g : Index) (id : BlockId) : Except Stuck (List BlockId) := do
  let _ ← block g id
  if g.parents.climb (g.parents.length + 1) id = g.ancestors id then known g (g.ancestors id)
  else throw .endless

def zoneChildren (g : Index) (place : Place) : Except Stuck (List BlockId) := do
  let _ ← block g place.container
  known g (g.zoneChildren place)

section

variable {g : Index}

theorem block_eq {id : BlockId} {b : Block} (h : g.block? id = some b) : block g id = pure b := by
  simp only [block, h]

theorem blocks_eq {ids : List BlockId} (h : ids ⊆ g.ids) :
    blocks g ids = pure (ids.filterMap g.block?) := by
  induction ids with
  | nil => rfl
  | cons id ids ih =>
    obtain ⟨b, hb⟩ := Index.exists_block? (h (by simp : id ∈ id :: ids))
    have hrest : List.mapM (block g) ids = pure (ids.filterMap g.block?) :=
      ih fun x hx => h (List.mem_cons_of_mem _ hx)
    rw [blocks, List.mapM_cons, block_eq hb, hrest, List.filterMap_cons_some hb]
    simp

theorem known_eq {ids : List BlockId} (h : ids ⊆ g.ids) : known g ids = pure ids := by
  rw [known, blocks_eq h, pure_bind, Index.map_id_filterMap_block? h]

/-- **The walk outward ends**, and all that it meets are blocks. -/
theorem ancestors_eq (hg : g.Consistent) {id : BlockId} (h : id ∈ g.ids) :
    ancestors g id = pure (g.ancestors id) := by
  obtain ⟨b, hb⟩ := Index.exists_block? h
  have hend : g.parents.climb (g.parents.length + 1) id = g.ancestors id :=
    (hg.acyclic.ancestors_eq id).symm
  rw [ancestors, block_eq hb, pure_bind, if_pos hend]
  exact known_eq (hg.nodup_subset_ancestors id).2

theorem zoneChildren_eq (hg : g.Consistent) {place : Place} (h : place.container ∈ g.ids) :
    zoneChildren g place = pure (g.zoneChildren place) := by
  obtain ⟨b, hb⟩ := Index.exists_block? h
  rw [zoneChildren, block_eq hb, pure_bind]
  exact known_eq (hg.scopeAt_subset (some place))

end

/-! ### Queries of a scope -/

def predecessors (s : Scope) (id : BlockId) : Except Stuck (List BlockId) :=
  known s.index (s.predecessors id)

def successors (s : Scope) (id : BlockId) : Except Stuck (List BlockId) :=
  known s.index (s.successors id)

def producers (s : Scope) (id : BlockId) : Except Stuck (List BlockId) :=
  known s.index (s.producers id)

/-- Whether a block outside is reached going inward is seen from the containers around it. -/
def nestedConsumers (s : Scope) (id : BlockId) : Except Stuck (List BlockId) := do
  let outside := ((s.index.outgoing id).map (·.target)).filter fun t => !s.contains t
  let _ ← outside.mapM (ancestors s.index)
  known s.index (s.nestedConsumers id)

/-- What a block reads inside its zones is seen from the containers around the targets. -/
def dependencies (s : Scope) (id : BlockId) : Except Stuck (List BlockId) := do
  let _ ← s.index.connections.mapM fun c => ancestors s.index c.target
  known s.index (s.dependencies id)

section

variable {s : Scope}

theorem predecessors_eq (hg : s.index.Consistent) (id : BlockId) :
    predecessors s id = pure (s.predecessors id) := by
  refine known_eq ?_
  intro p hp
  obtain ⟨c, hc, rfl⟩ := List.mem_map.mp (List.mem_eraseDups.mp hp)
  exact (hg.wired c (Scope.mem_incoming.mp hc).1).1

theorem successors_eq (hg : s.index.Consistent) (id : BlockId) :
    successors s id = pure (s.successors id) := by
  refine known_eq ?_
  intro t ht
  obtain ⟨c, hc, rfl⟩ := List.mem_map.mp (List.mem_eraseDups.mp ht)
  exact (hg.wired c (Scope.mem_outgoing.mp hc).1).2.1

theorem producers_eq (hg : s.index.Consistent) (id : BlockId) :
    producers s id = pure (s.producers id) := by
  refine known_eq ?_
  intro p hp
  obtain ⟨c, hc, rfl, -⟩ := Scope.mem_producers.mp hp
  exact (hg.wired c hc).1

theorem nestedConsumers_eq (hg : s.index.Consistent) (id : BlockId) :
    nestedConsumers s id = pure (s.nestedConsumers id) := by
  have htarget : ∀ t ∈ (s.index.outgoing id).map (·.target), t ∈ s.index.ids := by
    intro t ht
    obtain ⟨c, hc, rfl⟩ := List.mem_map.mp ht
    exact (hg.wired c (List.mem_of_mem_filter hc)).2.1
  rw [nestedConsumers,
    mapM_eq_pure fun t ht => ancestors_eq hg (htarget t (List.mem_of_mem_filter ht)), pure_bind]
  refine known_eq ?_
  intro t ht
  exact htarget t (List.mem_of_mem_filter (List.mem_of_mem_filter (List.mem_eraseDups.mp ht)))

theorem dependencies_eq (hg : s.index.Consistent) (id : BlockId) :
    dependencies s id = pure (s.dependencies id) := by
  rw [dependencies, mapM_eq_pure fun c hc => ancestors_eq hg (hg.wired c hc).2.1, pure_bind]
  refine known_eq ?_
  intro d hd
  obtain ⟨-, c, hc, rfl, -⟩ := Scope.mem_dependencies.mp hd
  exact (hg.wired c hc).1

end

/-! ### Sorting -/

/-- The blocks whose visit has ended, and those whose visit has not. -/
structure Marks where
  done : List BlockId := []
  visiting : List BlockId := []

/-- The cycle closed by a dependency on `x`, cut out of the path where `x` is found on it. -/
def cycleThrough (path : List BlockId) (x : BlockId) : Except Stuck (List BlockId) :=
  match path.idxOf? x with
  | some position => pure (x :: path.take position ++ [x])
  | none => throw (.offPath x)

/-- Visits `x` below the open visits `path`.  Whether a visit is open is read off the marks. -/
def visit (dependencies : BlockId → Except Stuck (List BlockId)) :
    Nat → List BlockId → Marks → BlockId → ExceptT (List BlockId) (Except Stuck) Marks
  | 0, _, _, _ => throwThe Stuck .endless
  | fuel + 1, path, marks, x =>
    if x ∈ marks.done then return marks
    else if x ∈ marks.visiting then do throw (← cycleThrough path x)
    else do
      let below ← dependencies x
      let inner ← below.foldlM (visit dependencies fuel (x :: path))
        { marks with visiting := x :: marks.visiting }
      return ⟨inner.done ++ [x], inner.visiting.erase x⟩

/-- The blocks of a scope in dependency order, or a cycle among them. -/
def sorted (s : Scope) : ExceptT (List BlockId) (Except Stuck) (List BlockId) :=
  return (← s.ids.foldlM (visit (dependencies s) (s.ids.length + 1) []) {}).done

theorem cycleThrough_eq {path : List BlockId} {x : BlockId} (h : x ∈ path) :
    cycleThrough path x = pure (Order.cycleThrough path x) := by
  have htake : path.take (path.idxOf x) = path.takeWhile (· ≠ x) := by
    induction path with
    | nil => rfl
    | cons y path ih =>
      by_cases hy : y = x
      · simp [hy]
      · have hx : x ∈ path := (List.mem_cons.mp h).resolve_left fun heq => hy heq.symm
        simp [hy, ih hx]
  obtain ⟨position, hfound⟩ := Option.isSome_iff_exists.mp (List.isSome_idxOf?.mpr h)
  have hposition : path.idxOf x = position := by
    rw [List.idxOf_eq_getD_idxOf?, hfound, Option.getD_some]
  rw [cycleThrough, hfound, Order.cycleThrough, ← htake, hposition]

/-- The outcome of a sort that does not get stuck. -/
def settled {α : Type} (outcome : Except (List BlockId) α) :
    ExceptT (List BlockId) (Except Stuck) α := ExceptT.mk (pure outcome)

/-- A run of visits, one after the other, from what each of them does. -/
theorem foldlM_visit_eq {path : List BlockId}
    {strict : Marks → BlockId → ExceptT (List BlockId) (Except Stuck) Marks}
    {visit : List BlockId → BlockId → Except (List BlockId) (List BlockId)} {xs : List BlockId}
    (h : ∀ x ∈ xs, ∀ done,
      strict ⟨done, path⟩ x = settled ((fun done => ⟨done, path⟩) <$> visit done x))
    (done : List BlockId) :
    xs.foldlM strict ⟨done, path⟩ =
      settled ((fun done => ⟨done, path⟩) <$> xs.foldlM visit done) := by
  induction xs generalizing done with
  | nil => rfl
  | cons x xs ih =>
    rw [List.foldlM_cons, List.foldlM_cons, h x (by simp)]
    cases visit done x with
    | error cycle => rfl
    | ok mid => exact ih (fun y hy => h y (by simp [hy])) mid

/-- **A visit does not get stuck** where the marks show the blocks of the path as open. -/
theorem visit_eq {strict : BlockId → Except Stuck (List BlockId)}
    {dependencies : BlockId → List BlockId} (hstrict : ∀ x, strict x = pure (dependencies x))
    {blocks : List BlockId} (hclosed : ∀ b ∈ blocks, dependencies b ⊆ blocks) {fuel : Nat}
    {path : List BlockId} {x : BlockId} (hx : x ∈ blocks) (hpath : path.Nodup)
    (hsub : path ⊆ blocks) (hfuel : blocks.length < fuel + path.length) (done : List BlockId) :
    visit strict fuel path ⟨done, path⟩ x =
      settled ((fun done => ⟨done, path⟩) <$> Order.visit dependencies fuel path done x) := by
  induction fuel generalizing path done x with
  | zero =>
    have := (hpath.subperm hsub).length_le
    omega
  | succ fuel ih =>
    rw [visit, Order.visit]
    by_cases hdone : x ∈ done
    · rw [if_pos hdone, if_pos hdone]
      rfl
    · rw [if_neg hdone, if_neg hdone]
      by_cases hopen : x ∈ path
      · rw [if_pos hopen, if_pos hopen, cycleThrough_eq hopen]
        rfl
      · rw [if_neg hopen, if_neg hopen, hstrict]
        have hpath' : (x :: path).Nodup := List.nodup_cons.mpr ⟨hopen, hpath⟩
        have hsub' : x :: path ⊆ blocks := List.cons_subset.mpr ⟨hx, hsub⟩
        have hbelow : (dependencies x).foldlM (visit strict fuel (x :: path)) ⟨done, x :: path⟩ =
            settled ((fun done => ⟨done, x :: path⟩) <$>
              (dependencies x).foldlM (Order.visit dependencies fuel (x :: path)) done) := by
          refine foldlM_visit_eq ?_ done
          intro y hy done
          refine ih (hclosed x hx hy) hpath' hsub' ?_ done
          rw [List.length_cons]
          omega
        simp only [liftM_pure, pure_bind, hbelow]
        cases (dependencies x).foldlM (Order.visit dependencies fuel (x :: path)) done with
        | error cycle => rfl
        | ok mid =>
          -- the visits below have left the marks of the path as they were
          show settled (.ok (Marks.mk (mid ++ [x]) ((x :: path).erase x))) = _
          rw [List.erase_cons_head]
          rfl

/-- **Sorting a scope does not get stuck**: it gives the order, or the cycle. -/
theorem sorted_eq {s : Scope} (hg : s.index.Consistent) : sorted s = settled s.sorted := by
  have hclosed : ∀ b ∈ s.ids, s.dependencies b ⊆ s.ids :=
    fun _ _ _ hd => (Scope.mem_dependencies.mp hd).1
  have hroot : ∀ x ∈ s.ids, ∀ done, visit (dependencies s) (s.ids.length + 1) [] ⟨done, []⟩ x =
      settled ((fun done => ⟨done, []⟩) <$>
        Order.visit s.dependencies (s.ids.length + 1) [] done x) := by
    intro x hx done
    exact visit_eq (dependencies_eq hg) hclosed hx List.nodup_nil (by simp) (by simp) done
  have hvisits := foldlM_visit_eq hroot []
  rw [sorted, hvisits, Scope.sorted, Order.sort]
  cases s.ids.foldlM (Order.visit s.dependencies (s.ids.length + 1) []) [] <;> rfl

/-! ### Chains -/

/-- What building the chains asks about a block. -/
def linkable (s : Scope) (id : BlockId) : Except Stuck Unit := do
  let _ ← block s.index id
  let _ ← predecessors s id
  let _ ← successors s id
  let _ ← nestedConsumers s id

/-- The chains of a scope.  A chain has come to its end when its stages after the head are fewer
than the blocks of the scope, which are the bound. -/
def chains (s : Scope) (order : List BlockId) : Except Stuck (List Chain) := do
  let _ ← order.mapM (linkable s)
  if (s.chains order).all fun c => c.tail.length < s.ids.length then return s.chains order
  else throw .endless

theorem linkable_eq {s : Scope} (hg : s.index.Consistent) {id : BlockId} (hid : id ∈ s.index.ids) :
    linkable s id = pure () := by
  obtain ⟨b, hb⟩ := Index.exists_block? hid
  simp only [linkable, block_eq hb, predecessors_eq hg, successors_eq hg, nestedConsumers_eq hg,
    pure_bind]

/-- **Building the chains of an ordered scope does not get stuck.** -/
theorem chains_eq {s : Scope} (hg : s.index.Consistent) {order : List BlockId}
    (hs : OrderedScope s order) (hids : s.ids ⊆ s.index.ids) :
    chains s order = pure (s.chains order) := by
  have hshort : (s.chains order).all fun c => c.tail.length < s.ids.length := by
    simp only [List.all_eq_true, decide_eq_true_eq]
    intro c hc
    have hmembers : c.members.Nodup := (List.nodup_flatMap.mp hs.runs.nodup).1 c hc
    exact (hmembers.subperm fun u hu => (hs.runs.inside c hc u hu).1).length_le
  rw [chains, mapM_eq_pure fun id hid => linkable_eq hg (hids (hs.perm.subset hid)), pure_bind,
    if_pos hshort]

end Strict

end BlockScript
