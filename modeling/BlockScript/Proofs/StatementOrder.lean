import BlockScript.Proofs.ChainRuns
import BlockScript.Script.Emission

/-!
# The statements of a scope

A scope is written as a list of statements: its control-flow containers, and its chains, each
where the first of its blocks comes up in the order.  That block is the head, since the blocks of
a chain stand in the order in which they stream (`OrderedScope.mem_front_of_chain`), so a statement
stands where its `lead` stands.

* `OrderedScope.statements_spec`: the statements are the containers and the chains, in the order
  of their leads.
* `OrderedScope.perm_members`: **every block is in exactly one statement.**
* `OrderedScope.statement_before`: **what the lead of a statement depends on is in an earlier
  statement.**
-/

namespace BlockScript

open Emit

/-- The block whose place in the order is the place of the statement. -/
def Emit.Statement.lead : Statement → BlockId
  | .container id => id
  | .chain c => c.head

theorem Emit.Statement.lead_mem (st : Statement) : st.lead ∈ st.members := by
  cases st with
  | container id => exact List.mem_singleton_self id
  | chain c => exact c.head_mem

/-- A scope and its blocks in dependency order. -/
structure OrderedScope (s : Scope) (order : List BlockId) : Prop where
  perm : order.Perm s.ids
  nodup : order.Nodup
  ordered : Order.Ordered s.dependencies order

theorem Scope.orderedScope {s : Scope} {order : List BlockId} (hnodup : s.ids.Nodup)
    (h : s.sorted = .ok order) : OrderedScope s order := by
  obtain ⟨hperm, hord⟩ := s.sorted_ok hnodup h
  exact ⟨hperm, hperm.nodup_iff.mpr hnodup, hord⟩

namespace OrderedScope

variable {s : Scope} {order : List BlockId}

theorem runs (h : OrderedScope s order) : s.Runs (s.chains order) :=
  (Scope.runs_chains h.perm h.ordered).runs

theorem mem_chains_iff (h : OrderedScope s order) {id : BlockId} :
    id ∈ (s.chains order).flatMap Chain.members ↔
      id ∈ order ∧ s.index.isControlFlow id = false := by
  constructor
  · intro hmem
    obtain ⟨c, hc, hid⟩ := List.mem_flatMap.mp hmem
    obtain ⟨hin, hplain⟩ := h.runs.inside c hc id hid
    exact ⟨h.perm.mem_iff.mpr hin, hplain⟩
  · rintro ⟨hmem, hplain⟩
    exact (Scope.runs_chains h.perm h.ordered).covered id hmem hplain

/-- A block is in one chain only. -/
theorem chain_eq_of_mem (h : OrderedScope s order) {c d : Chain} (hc : c ∈ s.chains order)
    (hd : d ∈ s.chains order) {id : BlockId} (hidc : id ∈ c.members) (hidd : id ∈ d.members) :
    c = d := eq_of_mem_flatMap h.runs.nodup hc hd hidc hidd

/-- What the blocks of the front depend on is in the front too. -/
theorem mem_front_of_dependencies (h : OrderedScope s order) {front back : List BlockId}
    (hsplit : order = front ++ back) {x d : BlockId} (hx : x ∈ front)
    (hd : d ∈ s.dependencies x) : d ∈ front := by
  obtain ⟨l₁, l₂, rfl⟩ := List.append_of_mem hx
  have := h.ordered l₁ x (l₂ ++ back) (by simp [hsplit]) d hd
  exact List.mem_append_left _ this

/-- The blocks of a chain come up in the order in which they stream. -/
theorem mem_front_of_chain (h : OrderedScope s order) {front back : List BlockId}
    (hsplit : order = front ++ back) {c : Chain} (hc : c ∈ s.chains order)
    {l₁ l₂ : List BlockId} {x : BlockId} (hmembers : c.members = l₁ ++ x :: l₂)
    (hx : x ∈ front) : ∀ u ∈ l₁, u ∈ front := by
  induction l₁ using List.reverseRecOn generalizing x l₂ with
  | nil => simp
  | append_singleton l₁ w ih =>
    have hmembers' : c.members = l₁ ++ w :: x :: l₂ := by simpa using hmembers
    have hlinked := h.runs.linked c hc
    rw [hmembers', List.isChain_append_cons_cons] at hlinked
    have hw : w ∈ front := h.mem_front_of_dependencies hsplit hx hlinked.2.1.mem_dependencies
    intro u hu
    rcases List.mem_append.mp hu with hu | hu
    · exact ih hmembers' hw u hu
    · exact List.mem_singleton.mp hu ▸ hw

theorem head_mem_front (h : OrderedScope s order) {front back : List BlockId}
    (hsplit : order = front ++ back) {c : Chain} (hc : c ∈ s.chains order) {x : BlockId}
    (hmem : x ∈ c.members) (hx : x ∈ front) : c.head ∈ front := by
  obtain ⟨l₁, l₂, hmembers⟩ := List.append_of_mem hmem
  cases l₁ with
  | nil =>
    obtain rfl : c.head = x := (List.cons.inj hmembers).1
    exact hx
  | cons y l₁ =>
    obtain rfl : c.head = y := (List.cons.inj hmembers).1
    exact h.mem_front_of_chain hsplit hc hmembers hx c.head (by simp)

/-! ### Building the statements -/

/-- What is known of the statements when the blocks of `front` have come up. -/
structure StatementsSoFar (s : Scope) (chains : List Chain) (front : List BlockId)
    (sts : List Statement) : Prop where
  container_iff : ∀ id, .container id ∈ sts ↔ id ∈ front ∧ s.index.isControlFlow id
  chain_iff : ∀ c, .chain c ∈ sts ↔ c ∈ chains ∧ c.head ∈ front
  leads : (sts.map Statement.lead).Sublist front

/-- What a block does when it comes up: it belongs to a chain that stands there already, or it is a
container, or it is the head of a chain. -/
theorem addStatement_cases (h : OrderedScope s order) {front back : List BlockId} {x : BlockId}
    (hsplit : order = front ++ x :: back) {sts : List Statement}
    (hsts : StatementsSoFar s (s.chains order) front sts) :
    (∃ c ∈ s.chains order, c.head ∈ front ∧ x ∈ c.members ∧
        addStatement s.index (s.chains order) sts x = sts) ∨
      (s.index.isControlFlow x ∧
        addStatement s.index (s.chains order) sts x = sts ++ [.container x]) ∨
      ∃ c ∈ s.chains order, c.head = x ∧
        addStatement s.index (s.chains order) sts x = sts ++ [.chain c] := by
  have hxfront : x ∉ front := by
    have := h.nodup
    rw [hsplit, List.nodup_append] at this
    exact fun hmem => this.2.2 x hmem x (by simp) rfl
  by_cases hcovered : x ∈ sts.flatMap Statement.members
  · obtain ⟨st, hst, hxst⟩ := List.mem_flatMap.mp hcovered
    cases st with
    | container id =>
      obtain rfl := List.mem_singleton.mp hxst
      exact absurd ((hsts.container_iff x).mp hst).1 hxfront
    | chain c =>
      obtain ⟨hc, hhead⟩ := (hsts.chain_iff c).mp hst
      exact Or.inl ⟨c, hc, hhead, hxst, by simp [addStatement, hcovered]⟩
  · by_cases hcf : s.index.isControlFlow x
    · exact Or.inr (Or.inl ⟨hcf, by simp [addStatement, hcovered, hcf]⟩)
    · rw [Bool.not_eq_true] at hcf
      obtain ⟨c, hc, hxc⟩ :=
        List.mem_flatMap.mp (h.mem_chains_iff.mpr ⟨by simp [hsplit], hcf⟩)
      have hfind : (s.chains order).find? (·.members.contains x) = some c := by
        cases hf : (s.chains order).find? (·.members.contains x) with
        | none => simpa [hxc] using List.find?_eq_none.mp hf c hc
        | some d =>
          have hxd : x ∈ d.members := by simpa using List.find?_some hf
          rw [h.chain_eq_of_mem (List.mem_of_find?_eq_some hf) hc hxd hxc]
      -- the head comes up no later than `x`, and it has not come up before
      have hlead : c.head = x := by
        have hfront := h.head_mem_front (by simp [hsplit] : order = (front ++ [x]) ++ back) hc hxc
          (by simp)
        rcases List.mem_append.mp hfront with hmem | hmem
        · refine absurd (List.mem_flatMap.mpr ⟨.chain c, ?_, hxc⟩) hcovered
          exact (hsts.chain_iff c).mpr ⟨hc, hmem⟩
        · exact List.mem_singleton.mp hmem
      have hnew : (sts.flatMap Statement.members).contains x = false := by simpa using hcovered
      refine Or.inr (Or.inr ⟨c, hc, hlead, ?_⟩)
      simp only [addStatement, hnew, hcf, Bool.false_eq_true, if_false, hfind]

namespace StatementsSoFar

variable {front : List BlockId} {sts : List Statement} {x : BlockId}

/-- A block of a chain that stands there already. -/
theorem skip (h : OrderedScope s order) (hsts : StatementsSoFar s (s.chains order) front sts)
    {c : Chain} (hc : c ∈ s.chains order) (hhead : c.head ∈ front) (hx : x ∈ c.members) :
    StatementsSoFar s (s.chains order) (front ++ [x]) sts := by
  have hplain := (h.runs.inside c hc x hx).2
  refine ⟨?_, ?_, hsts.leads.trans (List.sublist_append_left _ _)⟩
  · intro id
    rw [hsts.container_iff, List.mem_append, List.mem_singleton]
    constructor
    · exact fun ⟨hid, hcf⟩ => ⟨Or.inl hid, hcf⟩
    · rintro ⟨hid | rfl, hcf⟩
      · exact ⟨hid, hcf⟩
      · rw [hplain] at hcf
        cases hcf
  · intro d
    rw [hsts.chain_iff, List.mem_append, List.mem_singleton]
    constructor
    · exact fun ⟨hd, hhead⟩ => ⟨hd, Or.inl hhead⟩
    · rintro ⟨hd, hd' | hd'⟩
      · exact ⟨hd, hd'⟩
      · obtain rfl := h.chain_eq_of_mem hc hd hx (hd' ▸ d.head_mem)
        exact ⟨hc, hhead⟩

theorem concat_container (h : OrderedScope s order)
    (hsts : StatementsSoFar s (s.chains order) front sts) (hcf : s.index.isControlFlow x) :
    StatementsSoFar s (s.chains order) (front ++ [x]) (sts ++ [.container x]) := by
  refine ⟨?_, ?_, ?_⟩
  · intro id
    simp only [List.mem_append, List.mem_singleton, hsts.container_iff, Statement.container.injEq]
    constructor
    · rintro (⟨hid, hcf'⟩ | rfl)
      · exact ⟨Or.inl hid, hcf'⟩
      · exact ⟨Or.inr rfl, hcf⟩
    · rintro ⟨hid | rfl, hcf'⟩
      · exact Or.inl ⟨hid, hcf'⟩
      · exact Or.inr rfl
  · intro c
    simp only [List.mem_append, List.mem_singleton, hsts.chain_iff, reduceCtorEq, or_false]
    constructor
    · exact fun ⟨hc, hhead⟩ => ⟨hc, Or.inl hhead⟩
    · rintro ⟨hc, hhead | rfl⟩
      · exact ⟨hc, hhead⟩
      · rw [(h.runs.inside c hc c.head c.head_mem).2] at hcf
        cases hcf
  · rw [List.map_append]
    exact hsts.leads.append (List.Sublist.refl _)

theorem concat_chain (h : OrderedScope s order)
    (hsts : StatementsSoFar s (s.chains order) front sts) {c : Chain} (hc : c ∈ s.chains order) :
    StatementsSoFar s (s.chains order) (front ++ [c.head]) (sts ++ [.chain c]) := by
  refine ⟨?_, ?_, ?_⟩
  · intro id
    simp only [List.mem_append, List.mem_singleton, hsts.container_iff, reduceCtorEq, or_false]
    constructor
    · exact fun ⟨hid, hcf⟩ => ⟨Or.inl hid, hcf⟩
    · rintro ⟨hid | rfl, hcf⟩
      · exact ⟨hid, hcf⟩
      · rw [(h.runs.inside c hc c.head c.head_mem).2] at hcf
        cases hcf
  · intro d
    simp only [List.mem_append, List.mem_singleton, hsts.chain_iff, Statement.chain.injEq]
    constructor
    · rintro (⟨hd, hmem⟩ | rfl)
      · exact ⟨hd, Or.inl hmem⟩
      · exact ⟨hc, Or.inr rfl⟩
    · rintro ⟨hd, hmem | hmem⟩
      · exact Or.inl ⟨hd, hmem⟩
      · exact Or.inr (h.chain_eq_of_mem hd hc d.head_mem (hmem ▸ c.head_mem))
  · rw [List.map_append]
    exact hsts.leads.append (List.Sublist.refl _)

/-- One more block comes up. -/
theorem add (h : OrderedScope s order) {back : List BlockId} (hsplit : order = front ++ x :: back)
    (hsts : StatementsSoFar s (s.chains order) front sts) :
    StatementsSoFar s (s.chains order) (front ++ [x])
      (addStatement s.index (s.chains order) sts x) := by
  rcases addStatement_cases h hsplit hsts with
    ⟨c, hc, hhead, hx, heq⟩ | ⟨hcf, heq⟩ | ⟨c, hc, rfl, heq⟩
  · rw [heq]
    exact hsts.skip h hc hhead hx
  · rw [heq]
    exact hsts.concat_container h hcf
  · rw [heq]
    exact hsts.concat_chain h hc

end StatementsSoFar

/-- **The statements of a scope** are its control-flow containers and its chains, in the order of
their leads. -/
theorem statements_spec (h : OrderedScope s order) :
    StatementsSoFar s (s.chains order) order (statements s.index (s.chains order) order) := by
  have hfold : ∀ front back sts, order = front ++ back →
      StatementsSoFar s (s.chains order) front sts →
      StatementsSoFar s (s.chains order) order
        (back.foldl (addStatement s.index (s.chains order)) sts) := by
    intro front back
    induction back generalizing front with
    | nil =>
      intro sts heq hsts
      rw [List.append_nil] at heq
      rw [← heq] at hsts
      exact hsts
    | cons x back ih =>
      intro sts heq hsts
      exact ih (front ++ [x]) _ (by simp [heq]) (StatementsSoFar.add h heq hsts)
  exact hfold [] order [] rfl ⟨by simp, by simp, by simp⟩

theorem container_mem_iff (h : OrderedScope s order) {id : BlockId} :
    .container id ∈ statements s.index (s.chains order) order ↔
      id ∈ order ∧ s.index.isControlFlow id := h.statements_spec.container_iff id

theorem chain_mem_iff (h : OrderedScope s order) {c : Chain} :
    .chain c ∈ statements s.index (s.chains order) order ↔ c ∈ s.chains order := by
  rw [h.statements_spec.chain_iff]
  constructor
  · exact fun hc => hc.1
  · intro hc
    exact ⟨hc, h.perm.mem_iff.mpr (h.runs.inside c hc c.head c.head_mem).1⟩

theorem nodup_statements (h : OrderedScope s order) :
    (statements s.index (s.chains order) order).Nodup :=
  List.Nodup.of_map _ (h.statements_spec.leads.nodup h.nodup)

/-- **Every block is in exactly one statement.** -/
theorem perm_members (h : OrderedScope s order) :
    ((statements s.index (s.chains order) order).flatMap Statement.members).Perm order := by
  have hplain : ∀ c, .chain c ∈ statements s.index (s.chains order) order →
      ∀ x ∈ c.members, s.index.isControlFlow x = false :=
    fun c hc x hx => (h.runs.inside c (h.chain_mem_iff.mp hc) x hx).2
  have hnodup : ((statements s.index (s.chains order) order).flatMap Statement.members).Nodup := by
    rw [List.nodup_flatMap]
    constructor
    · intro st hst
      cases st with
      | container id => exact List.nodup_singleton id
      | chain c =>
        exact (List.nodup_flatMap.mp h.runs.nodup).1 c (h.chain_mem_iff.mp hst)
    · refine h.nodup_statements.imp_of_mem ?_
      intro a b ha hb hne x hxa hxb
      cases a with
      | container id =>
        obtain rfl := List.mem_singleton.mp hxa
        cases b with
        | container id' => exact hne (congrArg _ (List.mem_singleton.mp hxb))
        | chain c =>
          have := hplain c hb x hxb
          rw [(h.container_mem_iff.mp ha).2] at this
          cases this
      | chain c =>
        cases b with
        | container id =>
          obtain rfl := List.mem_singleton.mp hxb
          have := hplain c ha x hxa
          rw [(h.container_mem_iff.mp hb).2] at this
          cases this
        | chain d =>
          exact hne (congrArg _ (h.chain_eq_of_mem (h.chain_mem_iff.mp ha)
            (h.chain_mem_iff.mp hb) hxa hxb))
  refine (List.perm_ext_iff_of_nodup hnodup h.nodup).mpr fun x => ?_
  rw [List.mem_flatMap]
  constructor
  · rintro ⟨st, hst, hx⟩
    cases st with
    | container id =>
      obtain rfl := List.mem_singleton.mp hx
      exact (h.container_mem_iff.mp hst).1
    | chain c => exact h.perm.mem_iff.mpr (h.runs.inside c (h.chain_mem_iff.mp hst) x hx).1
  · intro hx
    by_cases hcf : s.index.isControlFlow x
    · exact ⟨.container x, h.container_mem_iff.mpr ⟨hx, hcf⟩, List.mem_singleton_self x⟩
    · rw [Bool.not_eq_true] at hcf
      obtain ⟨c, hc, hxc⟩ := List.mem_flatMap.mp (h.mem_chains_iff.mpr ⟨hx, hcf⟩)
      exact ⟨.chain c, h.chain_mem_iff.mpr hc, hxc⟩

theorem exists_statement (h : OrderedScope s order) {x : BlockId} (hx : x ∈ order) :
    ∃ st ∈ statements s.index (s.chains order) order, x ∈ st.members :=
  List.mem_flatMap.mp (h.perm_members.mem_iff.mpr hx)

theorem lead_mem_front (h : OrderedScope s order) {front back : List BlockId}
    (hsplit : order = front ++ back) {st : Statement}
    (hst : st ∈ statements s.index (s.chains order) order) {x : BlockId} (hmem : x ∈ st.members)
    (hx : x ∈ front) : st.lead ∈ front := by
  cases st with
  | container id =>
    obtain rfl := List.mem_singleton.mp hmem
    exact hx
  | chain c => exact h.head_mem_front hsplit (h.chain_mem_iff.mp hst) hmem hx

/-- **What the lead of a statement depends on is in an earlier statement**, although a whole chain
is written where its first block comes up. -/
theorem statement_before (h : OrderedScope s order) {l₁ l₂ : List Statement} {st : Statement}
    (hsplit : statements s.index (s.chains order) order = l₁ ++ st :: l₂) {d : BlockId}
    (hd : d ∈ s.dependencies st.lead) : ∃ st' ∈ l₁, d ∈ st'.members := by
  have hleads := h.statements_spec.leads
  rw [hsplit, List.map_append, List.map_cons] at hleads
  have hlead : st.lead ∈ order := hleads.subset (by simp)
  obtain ⟨front, back, horder⟩ := List.append_of_mem hlead
  have hdfront : d ∈ front := h.ordered front st.lead back horder d hd
  obtain ⟨hfront, -, hdisj⟩ := List.nodup_append.mp (horder ▸ h.nodup)
  have hnotin : st.lead ∉ front := fun hmem => hdisj _ hmem _ (by simp) rfl
  obtain ⟨st', hst', hdst'⟩ :=
    h.exists_statement (h.perm.mem_iff.mpr (Scope.mem_dependencies.mp hd).1)
  have hlead' : st'.lead ∈ front := h.lead_mem_front horder hst' hdst' hdfront
  rw [hsplit, List.mem_append, List.mem_cons] at hst'
  rcases hst' with hst' | rfl | hst'
  · exact ⟨st', hst', hdst'⟩
  · exact absurd hlead' hnotin
  · -- a later statement has its lead behind that of `st`
    rw [horder] at hleads
    have hback := sublist_of_cons_sublist_append hnotin
      ((List.sublist_append_right _ _).trans hleads)
    have hmem : st'.lead ∈ back := hback.subset (List.mem_map_of_mem hst')
    exact absurd rfl (hdisj _ hlead' _ (List.mem_cons_of_mem _ hmem))

end OrderedScope

end BlockScript
