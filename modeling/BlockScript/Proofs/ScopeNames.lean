import BlockScript.Proofs.NewNames
import BlockScript.Proofs.Scopes
import BlockScript.Proofs.StatementOrder
import BlockScript.Proofs.TableViews

/-!
# The names of a scope

A block gets a name if and only if its result is read other than by the next stage of its
pipeline, `Scope.isRead` (`OrderedScope.isSome_name_iff`).  Only the last block of a chain can be
read so, since a block that streams is read by the next stage alone (`Scope.Streams.not_isRead`).
The names of a scope are new ones, and they are different (`Binder.fresh_bindScope`).
-/

namespace BlockScript

open Naming

namespace Binder

/-! ### What one chain and one container do -/

variable {s : Scope}

theorem bindChain_cases (state : State) (c : Chain) :
    (chainNeedsName s c ∧ ∃ named, state.2.Chosen named ∧
        bindChain s state c = (Binding.set ⟨c.terminal, named.1⟩ state.1, named.2)) ∨
      ((chainNeedsName s c → s.index.block? c.terminal = none) ∧ bindChain s state c = state) := by
  by_cases hneeds : chainNeedsName s c
  · cases hlast : s.index.block? c.terminal with
    | none => exact Or.inr ⟨fun _ => rfl, by simp only [bindChain, hneeds, hlast]⟩
    | some last =>
      let members := c.members.filterMap s.index.block?
      refine Or.inl ⟨hneeds, _, state.2.chosen_nameFor members last, ?_⟩
      simp only [bindChain, hneeds, hlast, members]
  · refine Or.inr ⟨fun h => absurd h hneeds, ?_⟩
    rw [Bool.not_eq_true] at hneeds
    simp only [bindChain, hneeds]

theorem bindContainer_cases (state : State) (id : BlockId) :
    (s.index.isControlFlow id ∧ containerNeedsName s id ∧ Binding.nameIn state.1 id = none ∧
        ∃ named, state.2.Chosen named ∧
          bindContainer s state id = (state.1 ++ [⟨id, named.1⟩], named.2)) ∨
      ((s.index.isControlFlow id → containerNeedsName s id →
        (Binding.nameIn state.1 id).isSome) ∧ bindContainer s state id = state) := by
  cases hblock : s.index.block? id with
  | none =>
    refine Or.inr ⟨fun hcf => ?_, by simp only [bindContainer, hblock]⟩
    simp [Index.isControlFlow, hblock] at hcf
  | some block =>
    have hcf : s.index.isControlFlow id = block.isControlFlow := by
      simp [Index.isControlFlow, hblock]
    by_cases hcond : block.isControlFlow && (Binding.nameIn state.1 id).isNone &&
        containerNeedsName s id
    · have heq := hcond
      simp only [Bool.and_eq_true, Option.isNone_iff_eq_none] at heq
      refine Or.inl ⟨hcf ▸ heq.1.1, heq.2, heq.1.2, _, state.2.chosen_nameFor [block] block, ?_⟩
      simp only [bindContainer, hblock, hcond, if_true]
    · refine Or.inr ⟨fun hcf' hneeds => ?_, ?_⟩
      · rw [hcf] at hcf'
        simpa [hcf', hneeds, Option.isSome_iff_ne_none] using hcond
      · rw [Bool.not_eq_true] at hcond
        simp only [bindContainer, hblock, hcond, Bool.false_eq_true, if_false]

/-! ### The whole scope -/

theorem foldl_bindChain_spec {chains : List Chain}
    (hblocks : ∀ c ∈ chains, c.terminal ∈ s.index.ids) (state : State) (id : BlockId) :
    (Binding.nameIn (chains.foldl (bindChain s) state).1 id).isSome ↔
      (Binding.nameIn state.1 id).isSome ∨ ∃ c ∈ chains, c.terminal = id ∧ chainNeedsName s c := by
  induction chains generalizing state with
  | nil => simp
  | cons c chains ih =>
    rw [List.foldl_cons, ih fun d hd => hblocks d (by simp [hd])]
    simp only [List.mem_cons, exists_eq_or_imp]
    rcases @bindChain_cases s state c with ⟨hneeds, named, -, heq⟩ | ⟨hneeds, heq⟩
    · rw [heq, Binding.nameIn_set]
      by_cases hid : c.terminal = id
      · simp [hid, hneeds]
      · simp [hid]
    · have hno : ¬ chainNeedsName s c := by
        intro h
        obtain ⟨block, hblock⟩ := Index.exists_block? (hblocks c (by simp))
        rw [hneeds h] at hblock
        cases hblock
      simp [heq, hno]

theorem foldl_bindContainer_spec {order : List BlockId} (state : State) (id : BlockId) :
    (Binding.nameIn (order.foldl (bindContainer s) state).1 id).isSome ↔
      (Binding.nameIn state.1 id).isSome ∨
        (id ∈ order ∧ s.index.isControlFlow id ∧ containerNeedsName s id) := by
  induction order generalizing state with
  | nil => simp
  | cons x order ih =>
    rw [List.foldl_cons, ih, List.mem_cons]
    rcases @bindContainer_cases s state x with ⟨hcf, hneeds, hnone, named, -, heq⟩ | ⟨hno, heq⟩
    · rw [heq, Binding.nameIn_append, Binding.nameIn_cons]
      by_cases hid : x = id
      · subst hid
        simp [hcf, hneeds]
      · simp [hid, Ne.symm hid, Binding.nameIn]
    · rw [heq]
      by_cases hid : x = id
      · subst hid
        constructor
        · rintro (h | ⟨hmem, h⟩)
          · exact Or.inl h
          · exact Or.inr ⟨Or.inl rfl, h⟩
        · rintro (h | ⟨-, hcf, hneeds⟩)
          · exact Or.inl h
          · exact Or.inl (hno hcf hneeds)
      · simp [Ne.symm hid]

/-- **The blocks of a scope that get a name.** -/
theorem isSome_nameIn_bindScope_iff {chains : List Chain} {order : List BlockId}
    (hblocks : ∀ c ∈ chains, c.terminal ∈ s.index.ids) (b : Binder) (id : BlockId) :
    (Binding.nameIn (b.bindScope s chains order).1 id).isSome ↔
      (∃ c ∈ chains, c.terminal = id ∧ chainNeedsName s c) ∨
        (id ∈ order ∧ s.index.isControlFlow id ∧ containerNeedsName s id) := by
  rw [bindScope, foldl_bindContainer_spec, foldl_bindChain_spec hblocks]
  simp [Binding.nameIn]

/-! ### The names are new -/

/-- What a binder has given on the way from `b` to `b'`: names that `b` did not know, all different
whatever the case of their letters, each with the shape of a name.  `b'` knows them, and what `b`
knew. -/
structure Fresh (b : Binder) (bindings : List Binding) (b' : Binder) : Prop where
  distinct : (bindings.map (foldCase ·.name)).Nodup
  shape : ∀ x ∈ bindings, IsName x.name.toList
  new : ∀ x ∈ bindings, foldCase x.name ∉ b.used
  used : ∀ x ∈ bindings, foldCase x.name ∈ b'.used
  grows : b.used ⊆ b'.used

theorem Fresh.nil (b : Binder) : b.Fresh [] b := by
  constructor <;> simp

theorem Fresh.append {b b' b'' : Binder} {l l' : List Binding} (h : b.Fresh l b')
    (h' : b'.Fresh l' b'') : b.Fresh (l ++ l') b'' where
  distinct := by
    rw [List.map_append, List.nodup_append]
    refine ⟨h.distinct, h'.distinct, ?_⟩
    rintro name hname name' hname' rfl
    obtain ⟨x, hx, rfl⟩ := List.mem_map.mp hname
    obtain ⟨y, hy, heq⟩ := List.mem_map.mp hname'
    exact h'.new y hy (heq ▸ h.used x hx)
  shape := by
    rw [List.forall_mem_append]
    exact ⟨h.shape, h'.shape⟩
  new := by
    rw [List.forall_mem_append]
    exact ⟨h.new, fun x hx hmem => h'.new x hx (h.grows hmem)⟩
  used := by
    rw [List.forall_mem_append]
    exact ⟨fun x hx => h'.grows (h.used x hx), h'.used⟩
  grows := List.Subset.trans h.grows h'.grows

theorem Fresh.of_subperm {b b' : Binder} {l l' : List Binding} (h : b.Fresh l b')
    (hsub : l'.Subperm l) : b.Fresh l' b' where
  distinct := by
    obtain ⟨m, hperm, hsub⟩ := hsub
    exact (hperm.map _).nodup_iff.mp (h.distinct.sublist (hsub.map _))
  shape := fun x hx => h.shape x (hsub.subset hx)
  new := fun x hx => h.new x (hsub.subset hx)
  used := fun x hx => h.used x (hsub.subset hx)
  grows := h.grows

theorem Chosen.fresh {b : Binder} {named : String × Binder} (h : b.Chosen named) (id : BlockId) :
    b.Fresh [⟨id, named.1⟩] named.2 := by
  have hused := h.used_eq
  constructor
  · simp
  · simpa using h.shape
  · simpa using h.new
  · simp [hused]
  · simp [hused]

/-- A name that is set takes the place of another one, or stands at the end. -/
theorem subperm_set (x : Binding) (l : List Binding) : (Binding.set x l).Subperm (l ++ [x]) := by
  induction l with
  | nil => exact .refl _
  | cons y l ih =>
    rw [Binding.set]
    split
    · exact ⟨l ++ [x], List.perm_append_singleton x l, List.sublist_cons_self y (l ++ [x])⟩
    · exact (List.subperm_cons y).mpr ih

theorem fresh_bindChain {b : Binder} {state : State} (h : b.Fresh state.1 state.2) (c : Chain) :
    b.Fresh (bindChain s state c).1 (bindChain s state c).2 := by
  rcases @bindChain_cases s state c with ⟨-, named, hchosen, heq⟩ | ⟨-, heq⟩
  · rw [heq]
    exact (h.append (hchosen.fresh c.terminal)).of_subperm (subperm_set _ _)
  · rwa [heq]

theorem fresh_bindContainer {b : Binder} {state : State} (h : b.Fresh state.1 state.2)
    (id : BlockId) : b.Fresh (bindContainer s state id).1 (bindContainer s state id).2 := by
  rcases @bindContainer_cases s state id with ⟨-, -, -, named, hchosen, heq⟩ | ⟨-, heq⟩
  · rw [heq]
    exact h.append (hchosen.fresh id)
  · rwa [heq]

/-- **The names of a scope are new**, whatever chains and blocks it is bound with. -/
theorem fresh_bindScope (b : Binder) (s : Scope) (chains : List Chain) (order : List BlockId) :
    b.Fresh (b.bindScope s chains order).1 (b.bindScope s chains order).2 := by
  have hchains := List.foldlRecOn (motive := fun state : State => b.Fresh state.1 state.2) chains
    (bindChain s) (b := ([], b)) (.nil b) fun _ h c _ => fresh_bindChain h c
  exact List.foldlRecOn (motive := fun state : State => b.Fresh state.1 state.2) order
    (bindContainer s) hchains fun _ h id _ => fresh_bindContainer h id

/-- Binds scopes one after the other, each with its chains and its order. -/
def bindScopes (b : Binder) : List (Scope × List Chain × List BlockId) → State
  | [] => ([], b)
  | (s, chains, order) :: calls =>
    let bound := b.bindScope s chains order
    let rest := bound.2.bindScopes calls
    (bound.1 ++ rest.1, rest.2)

/-- **No binder gives a name twice**, whatever scopes it is asked to bind. -/
theorem fresh_bindScopes (b : Binder) (calls : List (Scope × List Chain × List BlockId)) :
    b.Fresh (b.bindScopes calls).1 (b.bindScopes calls).2 := by
  induction calls generalizing b with
  | nil => exact .nil b
  | cons call calls ih =>
    obtain ⟨s, chains, order⟩ := call
    exact (b.fresh_bindScope s chains order).append (ih _)

end Binder

/-! ### Results that are read -/

/-- Whether the result of a block is read other than by the next stage of its pipeline. -/
def Scope.isRead (s : Scope) (id : BlockId) : Bool :=
  if s.index.isControlFlow id then Binder.containerNeedsName s id
  else Binder.chainNeedsName s ⟨id, []⟩

theorem Scope.isRead_of_controlFlow {s : Scope} {id : BlockId} (h : s.index.isControlFlow id) :
    s.isRead id = Binder.containerNeedsName s id := if_pos h

theorem Scope.isRead_of_plain {s : Scope} {c : Chain}
    (h : s.index.isControlFlow c.terminal = false) :
    s.isRead c.terminal = Binder.chainNeedsName s c := if_neg (by simp [h])

theorem Scope.Streams.not_isRead {s : Scope} {u v : BlockId} (h : s.Streams u v) :
    s.isRead u = false := by
  obtain ⟨c, hout, hin⟩ := h.joined
  have htarget := (mem_incoming.mp (by rw [hin]; simp : c ∈ s.incoming v)).2.1
  have hnone : ¬ 1 < (s.outgoing u).length := by simp [hout]
  have hfeeds : s.feedsControlFlow u = false := by
    simp [feedsControlFlow, successors, hout, List.eraseDups_cons, htarget, h.right_plain]
  simp only [isRead, h.left_plain, Bool.false_eq_true, if_false, Binder.chainNeedsName,
    Chain.terminal, List.getLast?_nil, Option.getD_none, hnone, decide_false, hfeeds, h.unread,
    Bool.or_self]

namespace OrderedScope

variable {s : Scope} {order : List BlockId}

/-- In a chain only the last block is read. -/
theorem eq_terminal_of_isRead (h : OrderedScope s order) {c : Chain} (hc : c ∈ s.chains order)
    {id : BlockId} (hid : id ∈ c.members) (hread : s.isRead id) : id = c.terminal := by
  obtain ⟨l₁, l₂, hsplit⟩ := List.append_of_mem hid
  cases l₂ with
  | nil =>
    have hlast := c.getLast?_members
    rw [hsplit, List.getLast?_concat] at hlast
    exact Option.some.inj hlast
  | cons v l₂ =>
    have hlinked := h.runs.linked c hc
    rw [hsplit, List.isChain_append_cons_cons] at hlinked
    rw [hlinked.2.1.not_isRead] at hread
    cases hread

/-- **A block has a name if and only if its result is read.** -/
theorem isSome_name_iff (h : OrderedScope s order) (hblocks : s.ids ⊆ s.index.ids) (b : Binder)
    (id : BlockId) :
    (Binding.nameIn (b.bindScope s (s.chains order) order).1 id).isSome ↔
      id ∈ s.ids ∧ s.isRead id := by
  have hinside : ∀ c ∈ s.chains order, c.terminal ∈ s.ids ∧
      s.index.isControlFlow c.terminal = false :=
    fun c hc => h.runs.inside c hc c.terminal c.terminal_mem
  rw [Binder.isSome_nameIn_bindScope_iff fun c hc => hblocks (hinside c hc).1]
  constructor
  · rintro (⟨c, hc, rfl, hneeds⟩ | ⟨hmem, hcf, hneeds⟩)
    · exact ⟨(hinside c hc).1, by rw [Scope.isRead_of_plain (hinside c hc).2, hneeds]⟩
    · exact ⟨h.perm.subset hmem, by rw [Scope.isRead_of_controlFlow hcf, hneeds]⟩
  · rintro ⟨hmem, hread⟩
    by_cases hcf : s.index.isControlFlow id
    · rw [Scope.isRead_of_controlFlow hcf] at hread
      exact Or.inr ⟨h.perm.mem_iff.mpr hmem, hcf, hread⟩
    · rw [Bool.not_eq_true] at hcf
      obtain ⟨c, hc, hidc⟩ :=
        List.mem_flatMap.mp (h.mem_chains_iff.mpr ⟨h.perm.mem_iff.mpr hmem, hcf⟩)
      obtain rfl := h.eq_terminal_of_isRead hc hidc hread
      rw [Scope.isRead_of_plain hcf] at hread
      exact Or.inl ⟨c, hc, rfl, hread⟩

end OrderedScope

end BlockScript
