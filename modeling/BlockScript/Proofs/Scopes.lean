import BlockScript.Proofs.Forest
import BlockScript.Proofs.Lists
import BlockScript.Proofs.Wiring

/-!
# Consistent graphs and their scopes

Everything after indexing relies on four facts about an indexed graph, `Index.Consistent`, and
every valid snapshot gives them (`Snapshot.Valid.consistent`).  With them the scopes are the
classes of blocks that lie in one place: `scopeAt none` is the top level, `scopeAt (some place)`
a zone, and a block is in the scope of its `parent?` and in no other.

`scopesFrom P` goes outward from a scope as far as its bindings can be seen: from a zone to the
scope of its container, and no further than the body of a function.  The scopes on this way have
different depths, so two of the same depth are the same scope (`Consistent.eq_of_depth_eq`); this
is what keeps sibling zones apart.
-/

namespace BlockScript

theorem Block.exists_function_of_isCallable {b : Block} (h : b.isCallable) :
    ∃ name inputParam body, b.container = some (.function name inputParam body) := by
  cases hc : b.container with
  | none => simp [isCallable, functionName?, hc] at h
  | some c =>
    cases c with
    | function name inputParam body => exact ⟨name, inputParam, body, rfl⟩
    | _ => simp [isCallable, functionName?, hc] at h

namespace Index

/-- The ids of all blocks. -/
def ids (g : Index) : List BlockId := g.blocks.map Block.id

/-- What indexing makes sure of: the ids are different, no block lies inside itself, a nested
block exists and is listed by its zone, and a connection joins two different blocks. -/
structure Consistent (g : Index) : Prop where
  ids_nodup : g.ids.Nodup
  acyclic : Parents.Acyclic g.parents
  nested : ∀ {id place}, g.parent? id = some place → id ∈ g.ids ∧
    ∃ b z, g.block? place.container = some b ∧ b.zone? place.zone = some z ∧ id ∈ z.children
  wired : ∀ c ∈ g.connections, c.source ∈ g.ids ∧ c.target ∈ g.ids ∧ c.source ≠ c.target

variable {g : Index}

/-! ### Blocks by id -/

theorem mem_of_block? {id : BlockId} {b : Block} (h : g.block? id = some b) :
    b ∈ g.blocks ∧ b.id = id :=
  ⟨List.mem_of_find?_eq_some h, by simpa using List.find?_some h⟩

theorem isSome_block?_iff {id : BlockId} : (g.block? id).isSome ↔ id ∈ g.ids := by
  simp [block?, ids]

theorem mem_ids_of_block? {id : BlockId} {b : Block} (h : g.block? id = some b) : id ∈ g.ids :=
  isSome_block?_iff.mp (by rw [h]; rfl)

theorem exists_block? {id : BlockId} (h : id ∈ g.ids) : ∃ b, g.block? id = some b :=
  Option.isSome_iff_exists.mp (isSome_block?_iff.mpr h)

theorem map_id_filterMap_block? {ids : List BlockId} (h : ∀ id ∈ ids, id ∈ g.ids) :
    (ids.filterMap g.block?).map Block.id = ids := by
  induction ids with
  | nil => rfl
  | cons id ids ih =>
    obtain ⟨block, hblock⟩ := exists_block? (h id List.mem_cons_self)
    obtain ⟨-, rfl⟩ := mem_of_block? hblock
    rw [List.filterMap_cons_some hblock, List.map_cons,
      ih fun id hid => h id (List.mem_cons_of_mem _ hid)]

theorem Consistent.block?_of_mem (h : g.Consistent) {b : Block} (hb : b ∈ g.blocks) :
    g.block? b.id = some b := find?_key_of_mem h.ids_nodup hb

theorem isControlFlow_iff {id : BlockId} :
    g.isControlFlow id ↔ ∃ b, g.block? id = some b ∧ b.isControlFlow := by
  simp [isControlFlow, Option.any_eq_true]

theorem isCallable_iff {id : BlockId} :
    g.isCallable id ↔ ∃ b, g.block? id = some b ∧ b.isCallable := by
  simp [isCallable, Option.any_eq_true]

theorem not_isCallable_of_isControlFlow {id : BlockId} (h : g.isControlFlow id) :
    g.isCallable id = false := by
  obtain ⟨b, hb, hcf⟩ := isControlFlow_iff.mp h
  rw [Block.isControlFlow, Bool.and_eq_true] at hcf
  simpa [isCallable, hb] using hcf.2

/-! ### The containers around a block -/

theorem Consistent.ancestors_eq (h : g.Consistent) (id : BlockId) :
    g.ancestors id = match g.parent? id with
      | none => []
      | some place => place.container :: g.ancestors place.container :=
  h.acyclic.ancestors_eq id

theorem Consistent.ancestors_of_some (h : g.Consistent) {id : BlockId} {place : Place}
    (hp : g.parent? id = some place) :
    g.ancestors id = place.container :: g.ancestors place.container := by
  rw [h.ancestors_eq, hp]

theorem Consistent.ancestors_of_none (h : g.Consistent) {id : BlockId}
    (hp : g.parent? id = none) : g.ancestors id = [] := by
  rw [h.ancestors_eq, hp]

theorem ancestors_trans {a b c : BlockId} (hab : b ∈ g.ancestors a) (hbc : c ∈ g.ancestors b) :
    c ∈ g.ancestors a := Parents.ancestors_trans hab hbc

/-- What holds other blocks is a function or a control-flow container. -/
theorem Consistent.isControlFlow_of_parent? (h : g.Consistent) {id : BlockId} {place : Place}
    (hp : g.parent? id = some place) (hcall : g.isCallable place.container = false) :
    g.isControlFlow place.container := by
  obtain ⟨-, b, z, hb, hz, -⟩ := h.nested hp
  have hcontainer : b.isContainer := by
    cases hc : b.container with
    | none => simp [Block.zone?, Block.zones, hc] at hz
    | some c => simp [Block.isContainer, hc]
  refine isControlFlow_iff.mpr ⟨b, hb, ?_⟩
  simp only [isCallable, hb, Option.any_some] at hcall
  simp [Block.isControlFlow, hcontainer, hcall]

theorem Consistent.container_mem_ids (h : g.Consistent) {id : BlockId} {place : Place}
    (hp : g.parent? id = some place) : place.container ∈ g.ids := by
  obtain ⟨-, b, z, hb, -⟩ := h.nested hp
  exact mem_ids_of_block? hb

theorem Consistent.nodup_subset_ancestors (h : g.Consistent) (id : BlockId) :
    (g.ancestors id).Nodup ∧ g.ancestors id ⊆ g.ids := by
  induction hn : (g.ancestors id).length generalizing id with
  | zero => simp [List.length_eq_zero_iff.mp hn]
  | succ n ih =>
    cases hp : g.parent? id with
    | none => simp [h.ancestors_of_none hp]
    | some place =>
      rw [h.ancestors_of_some hp] at hn ⊢
      obtain ⟨hnodup, hsub⟩ := ih place.container (by simpa using hn)
      exact ⟨List.nodup_cons.mpr ⟨h.acyclic _, hnodup⟩,
        List.cons_subset.mpr ⟨h.container_mem_ids hp, hsub⟩⟩

theorem Consistent.length_ancestors_lt (h : g.Consistent) {id : BlockId} (hid : id ∈ g.ids) :
    (g.ancestors id).length < g.blocks.length := by
  obtain ⟨hnodup, hsub⟩ := h.nodup_subset_ancestors id
  have hcons : (id :: g.ancestors id).Nodup := List.nodup_cons.mpr ⟨h.acyclic id, hnodup⟩
  have := (hcons.subperm (List.cons_subset.mpr ⟨hid, hsub⟩)).length_le
  rw [List.length_cons, ids, List.length_map] at this
  omega

/-! ### Scopes -/

/-- The scope of the blocks that lie in a zone, or in none. -/
def scopeAt (g : Index) : Option Place → Scope
  | none => g.topScope
  | some place => g.zoneScope place

@[simp] theorem scopeAt_index (P : Option Place) : (g.scopeAt P).index = g := by
  cases P <;> rfl

/-- **A block is in the scope of its place, and in no other.** -/
theorem Consistent.mem_scopeAt (h : g.Consistent) {P : Option Place} {id : BlockId} :
    id ∈ (g.scopeAt P).ids ↔ id ∈ g.ids ∧ g.parent? id = P := by
  cases P with
  | none => simp [scopeAt, topScope, topLevel, ids]
  | some place =>
    simp only [scopeAt, zoneScope, zoneChildren]
    constructor
    · intro hmem
      cases hz : (g.block? place.container).bind (·.zone? place.zone) with
      | none => simp [hz] at hmem
      | some z =>
        have hp : g.parent? id = some place := by simp [hz] at hmem; exact hmem.2
        exact ⟨(h.nested hp).1, hp⟩
    · rintro ⟨-, hp⟩
      obtain ⟨-, b, z, hb, hz, hmem⟩ := h.nested hp
      simp [hb, hz, hmem, hp]

theorem Consistent.scopeAt_subset (h : g.Consistent) (P : Option Place) :
    (g.scopeAt P).ids ⊆ g.ids := fun _ hid => (h.mem_scopeAt.mp hid).1

theorem Consistent.nodup_scopeAt (h : g.Consistent) (P : Option Place) :
    (g.scopeAt P).ids.Nodup := by
  cases P with
  | none => exact h.ids_nodup.filter _
  | some place =>
    simp only [scopeAt, zoneScope, zoneChildren]
    split
    · exact nodup_eraseDups _
    · exact List.nodup_nil

/-! ### From scope to scope, outward -/

/-- A scope and the scopes around it, innermost first, up to the body of the nearest function. -/
def scopesFrom (g : Index) : Option Place → List (Option Place)
  | none => [none]
  | some place => some place ::
    ((place.container :: g.ancestors place.container).takeWhile (!g.isCallable ·)).map g.parent?

@[simp] theorem scopesFrom_none : g.scopesFrom none = [none] := rfl

theorem self_mem_scopesFrom (P : Option Place) : P ∈ g.scopesFrom P := by
  cases P <;> simp [scopesFrom]

theorem scopesFrom_eq_cons (P : Option Place) :
    g.scopesFrom P = P :: (g.scopesFrom P).tail := by
  cases P <;> rfl

theorem scopesFrom_of_callable {place : Place} (hc : g.isCallable place.container) :
    g.scopesFrom (some place) = [some place] := by
  simp [scopesFrom, hc]

theorem Consistent.scopesFrom_of_not_callable (h : g.Consistent) {place : Place}
    (hc : g.isCallable place.container = false) :
    g.scopesFrom (some place) = some place :: g.scopesFrom (g.parent? place.container) := by
  cases hp : g.parent? place.container with
  | none => simp [scopesFrom, hc, h.ancestors_of_none hp, hp]
  | some outer => simp [scopesFrom, hc, h.ancestors_of_some hp, hp]

/-- The number of zones around the blocks of a scope. -/
def depth (g : Index) : Option Place → Nat
  | none => 0
  | some place => (g.ancestors place.container).length + 1

theorem Consistent.depth_parent? (h : g.Consistent) (id : BlockId) :
    g.depth (g.parent? id) = (g.ancestors id).length := by
  cases hp : g.parent? id with
  | none => simp [depth, h.ancestors_of_none hp]
  | some place => simp [depth, h.ancestors_of_some hp]

theorem Consistent.depth_zone (h : g.Consistent) (place : Place) :
    g.depth (some place) = g.depth (g.parent? place.container) + 1 := by
  rw [h.depth_parent?]
  rfl

theorem Consistent.depth_zone_le (h : g.Consistent) {id : BlockId} (hid : id ∈ g.ids)
    (zone : ZoneLabel) : g.depth (some ⟨id, zone⟩) ≤ g.blocks.length := h.length_ancestors_lt hid

/-- To show something of every scope, go outward: the top level, and a zone from the scope of its
container. -/
@[elab_as_elim]
theorem Consistent.outward (h : g.Consistent) {motive : Option Place → Prop} (P : Option Place)
    (top : motive none)
    (zone : ∀ place, motive (g.parent? place.container) → motive (some place)) : motive P := by
  induction hn : g.depth P generalizing P with
  | zero =>
    cases P with
    | none => exact top
    | some place => simp [depth] at hn
  | succ n ih =>
    cases P with
    | none => exact top
    | some place =>
      refine zone place (ih _ ?_)
      have := h.depth_zone place
      omega

theorem Consistent.scopesFrom_trans (h : g.Consistent) {P Q R : Option Place}
    (hPQ : Q ∈ g.scopesFrom P) (hQR : R ∈ g.scopesFrom Q) : R ∈ g.scopesFrom P := by
  induction P using h.outward with
  | top =>
    obtain rfl : Q = none := by simpa using hPQ
    exact hQR
  | zone place ih =>
    by_cases hc : g.isCallable place.container
    · rw [scopesFrom_of_callable hc, List.mem_singleton] at hPQ
      exact hPQ ▸ hQR
    · rw [Bool.not_eq_true] at hc
      rw [h.scopesFrom_of_not_callable hc, List.mem_cons] at hPQ
      rcases hPQ with rfl | hPQ
      · exact hQR
      · rw [h.scopesFrom_of_not_callable hc]
        exact List.mem_cons_of_mem _ (ih hPQ)

/-- A zone on the way outward belongs to a container around the block. -/
theorem Consistent.container_mem_ancestors (h : g.Consistent) {id : BlockId} {place : Place}
    (hplace : some place ∈ g.scopesFrom (g.parent? id)) : place.container ∈ g.ancestors id := by
  cases hp : g.parent? id with
  | none => simp [hp] at hplace
  | some inner =>
    rw [h.ancestors_of_some hp]
    rw [hp, scopesFrom, List.mem_cons] at hplace
    rcases hplace with heq | hmem
    · obtain rfl := Option.some.inj heq
      exact List.mem_cons_self
    · obtain ⟨x, hx, hparent⟩ := List.mem_map.mp hmem
      have hx' := (List.takeWhile_sublist _).subset hx
      have hmem : place.container ∈ g.ancestors x := by
        rw [h.ancestors_of_some hparent]
        exact List.mem_cons_self
      rcases List.mem_cons.mp hx' with rfl | hx'
      · exact List.mem_cons_of_mem _ hmem
      · exact List.mem_cons_of_mem _ (ancestors_trans hx' hmem)

theorem Consistent.depth_le (h : g.Consistent) {P Q : Option Place} (hQ : Q ∈ g.scopesFrom P) :
    g.depth Q ≤ g.depth P := by
  induction P using h.outward with
  | top =>
    obtain rfl : Q = none := by simpa using hQ
    exact le_rfl
  | zone place ih =>
    by_cases hc : g.isCallable place.container
    · rw [scopesFrom_of_callable hc, List.mem_singleton] at hQ
      rw [hQ]
    · rw [Bool.not_eq_true] at hc
      rw [h.scopesFrom_of_not_callable hc, List.mem_cons] at hQ
      rcases hQ with rfl | hQ
      · exact le_rfl
      · have := ih hQ
        have := h.depth_zone place
        omega

/-- **The scopes on the way outward have different depths.** -/
theorem Consistent.eq_of_depth_eq (h : g.Consistent) {P Q R : Option Place}
    (hQ : Q ∈ g.scopesFrom P) (hR : R ∈ g.scopesFrom P) (hd : g.depth Q = g.depth R) : Q = R := by
  induction P using h.outward with
  | top =>
    rw [scopesFrom_none, List.mem_singleton] at hQ hR
    rw [hQ, hR]
  | zone place ih =>
    by_cases hc : g.isCallable place.container
    · rw [scopesFrom_of_callable hc, List.mem_singleton] at hQ hR
      rw [hQ, hR]
    · rw [Bool.not_eq_true] at hc
      rw [h.scopesFrom_of_not_callable hc, List.mem_cons] at hQ hR
      have hzone := h.depth_zone place
      rcases hQ with rfl | hQ <;> rcases hR with rfl | hR
      · rfl
      · have := h.depth_le hR
        omega
      · have := h.depth_le hQ
        omega
      · exact ih hQ hR

theorem Consistent.eq_of_mem_scopesFrom (h : g.Consistent) {P Q : Option Place}
    (hPQ : Q ∈ g.scopesFrom P) (hQP : P ∈ g.scopesFrom Q) : P = Q :=
  h.eq_of_depth_eq (self_mem_scopesFrom P) hPQ
    (Nat.le_antisymm (h.depth_le hQP) (h.depth_le hPQ))

/-- Of two scopes on one way outward, one lies around the other. -/
theorem Consistent.mem_scopesFrom_total (h : g.Consistent) {P Q R : Option Place}
    (hQ : Q ∈ g.scopesFrom P) (hR : R ∈ g.scopesFrom P) :
    R ∈ g.scopesFrom Q ∨ Q ∈ g.scopesFrom R := by
  induction P using h.outward with
  | top =>
    rw [scopesFrom_none, List.mem_singleton] at hQ hR
    exact Or.inl (by simp [hQ, hR])
  | zone place ih =>
    by_cases hc : g.isCallable place.container
    · rw [scopesFrom_of_callable hc, List.mem_singleton] at hQ hR
      exact Or.inl (by rw [hQ, hR]; exact self_mem_scopesFrom _)
    · rw [Bool.not_eq_true] at hc
      have hcons := h.scopesFrom_of_not_callable hc
      rw [hcons, List.mem_cons] at hQ hR
      rcases hQ with rfl | hQ
      · exact Or.inl (by rw [hcons]; exact List.mem_cons.mpr hR)
      · rcases hR with rfl | hR
        · exact Or.inr (by rw [hcons]; exact List.mem_cons_of_mem _ hQ)
        · exact ih hQ hR

theorem Consistent.scopesFrom_zone (h : g.Consistent) {P : Option Place} {id : BlockId}
    (hid : id ∈ (g.scopeAt P).ids) (hcf : g.isControlFlow id) (zone : ZoneLabel) :
    g.scopesFrom (some ⟨id, zone⟩) = some ⟨id, zone⟩ :: g.scopesFrom P := by
  have hc : g.isCallable (Place.mk id zone).container = false :=
    not_isCallable_of_isControlFlow hcf
  rw [h.scopesFrom_of_not_callable hc, (h.mem_scopeAt.mp hid).2]

/-- Of two zones of blocks in one scope, a scope lies inside one at most. -/
theorem Consistent.zone_eq_of_mem (h : g.Consistent) {P : Option Place} {p q : Place}
    (hp : some p ∈ g.scopesFrom P) (hq : some q ∈ g.scopesFrom P)
    (hparent : g.parent? p.container = g.parent? q.container) : p = q := by
  have hd : g.depth (some p) = g.depth (some q) := by
    rw [h.depth_zone p, h.depth_zone q, hparent]
  exact Option.some.inj (h.eq_of_depth_eq hp hq hd)

/-- The way outward ends in one place: the top level, or the body of one function. -/
theorem Consistent.root_unique (h : g.Consistent) {P Q R : Option Place}
    (hQ : Q ∈ g.scopesFrom P) (hR : R ∈ g.scopesFrom P) (hQroot : g.scopesFrom Q = [Q])
    (hRroot : g.scopesFrom R = [R]) : Q = R := by
  induction P using h.outward with
  | top =>
    rw [scopesFrom_none, List.mem_singleton] at hQ hR
    rw [hQ, hR]
  | zone place ih =>
    by_cases hc : g.isCallable place.container
    · rw [scopesFrom_of_callable hc, List.mem_singleton] at hQ hR
      rw [hQ, hR]
    · rw [Bool.not_eq_true] at hc
      have hwhole : g.scopesFrom (some place) ≠ [some place] := by
        rw [h.scopesFrom_of_not_callable hc]
        intro he
        have := @self_mem_scopesFrom g (g.parent? place.container)
        simp_all
      rw [h.scopesFrom_of_not_callable hc, List.mem_cons] at hQ hR
      rcases hQ with rfl | hQ
      · exact absurd hQroot hwhole
      · rcases hR with rfl | hR
        · exact absurd hRroot hwhole
        · exact ih hQ hR

end Index

/-! ### The index of a valid snapshot -/

theorem ContainerKind.nodup_zones (kind : ContainerKind) : kind.zones.Nodup := by
  cases kind <;> decide

theorem Block.nodup_labels (b : Block) : (b.zones.map Zone.label).Nodup := by
  cases hc : b.container with
  | none => simp [Block.zones, hc]
  | some c => simpa [Block.zones, hc] using c.kind.nodup_zones

theorem Block.zone?_of_mem {b : Block} {z : Zone} (hz : z ∈ b.zones) :
    b.zone? z.label = some z :=
  find?_key_of_mem b.nodup_labels hz

/-- **Every valid snapshot gives a consistent graph.** -/
theorem Snapshot.Valid.consistent {s : Snapshot} (h : s.Valid) : s.index.Consistent where
  ids_nodup := h.ids_nodup
  acyclic := s.nesting_acyclic
  nested := by
    intro id place hp
    have hmem := (Parents.lookup_eq_some_iff_mem s.nesting_parents_nodup).mp hp
    obtain ⟨hlisted, hex, -⟩ := mem_nesting_parents hmem
    obtain ⟨b, hb, z, hz, hchild, rfl⟩ := mem_listings.mp hlisted
    exact ⟨hex, b, z, find?_key_of_mem h.ids_nodup hb, Block.zone?_of_mem hz, hchild⟩
  wired := by
    intro c hc
    obtain ⟨-, source, target, hs, ht, hne, -⟩ := mem_wiring_accepted hc
    exact ⟨Index.mem_ids_of_block? hs, Index.mem_ids_of_block? ht, hne⟩

end BlockScript
