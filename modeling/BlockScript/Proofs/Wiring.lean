import BlockScript.Graph.Wiring
import Mathlib.Data.List.Pairwise

/-!
# Accepted connections

A connection is accepted when it is well formed and its inlet is still free
(`Wiring.refusal?_eq_none_iff`).  So the accepted connections are well formed and no two of them
lead into one inlet, and a list of connections with these two properties is accepted as it is,
without a finding (`Wiring.foldl_add_of_independent`).
-/

namespace BlockScript

namespace Wiring

variable {blocks : List Block}

/-- Both blocks exist, they differ, and they have the named sockets. -/
def WellFormed (blocks : List Block) (c : Connection) : Prop :=
  ∃ source target, blocks.find? (·.id == c.source) = some source ∧
    blocks.find? (·.id == c.target) = some target ∧ c.source ≠ c.target ∧
    c.outlet ∈ source.outputs ∧ c.inlet ∈ target.inputs

/-- No two of the connections lead into one inlet. -/
def Independent (connections : List Connection) : Prop :=
  connections.Pairwise fun earlier later => sameInput later earlier = false

theorem sameInput_self (c : Connection) : sameInput c c = true := by simp [sameInput]

theorem refusal?_eq_none_iff {accepted : List Connection} {c : Connection} :
    refusal? blocks accepted c = none ↔
      WellFormed blocks c ∧ ∀ d ∈ accepted, sameInput c d = false := by
  cases hs : blocks.find? (·.id == c.source) with
  | none => simp [refusal?, WellFormed, hs]
  | some source =>
    cases ht : blocks.find? (·.id == c.target) with
    | none => simp [refusal?, WellFormed, hs, ht]
    | some target =>
      have hany : (accepted.any (sameInput c) = true → False) ↔
          ∀ d ∈ accepted, sameInput c d = false := by simp
      by_cases hself : c.source = c.target
      · simp [refusal?, WellFormed, ht, hself]
      · by_cases hsock : c.outlet ∉ source.outputs ∨ c.inlet ∉ target.inputs
        · simp only [refusal?, hs, ht, if_neg hself, if_pos hsock, reduceCtorEq, false_iff]
          rintro ⟨⟨source', target', hs', ht', -, ho, hi⟩, -⟩
          rw [hs] at hs'
          rw [ht] at ht'
          cases hs'
          cases ht'
          exact hsock.elim (fun h => h ho) (fun h => h hi)
        · have hok : WellFormed blocks c := by
            rw [not_or, not_not, not_not] at hsock
            exact ⟨source, target, hs, ht, hself, hsock.1, hsock.2⟩
          simp only [refusal?, hs, ht, if_neg hself, if_neg hsock, hok, true_and]
          rw [← hany]
          by_cases hdup : c ∈ accepted
          · have : accepted.any (sameInput c) = true :=
              List.any_eq_true.mpr ⟨c, hdup, sameInput_self c⟩
            simp [hdup, this]
          · simp [hdup]

/-- What a connection does to the wiring. -/
theorem add_cases (blocks : List Block) (w : Wiring) (c : Connection) :
    (WellFormed blocks c ∧ (∀ d ∈ w.accepted, sameInput c d = false) ∧
        w.add blocks c = { w with accepted := w.accepted ++ [c] }) ∨
      ∃ finding, w.add blocks c = { w with findings := w.findings ++ [finding] } := by
  cases h : refusal? blocks w.accepted c with
  | none =>
    obtain ⟨hok, hfree⟩ := refusal?_eq_none_iff.mp h
    exact Or.inl ⟨hok, hfree, by simp only [add, h]⟩
  | some finding => exact Or.inr ⟨finding, by simp only [add, h]⟩

theorem mem_foldl_add {connections : List Connection} {w : Wiring} :
    ∀ c ∈ (connections.foldl (add blocks) w).accepted,
      c ∈ w.accepted ∨ (c ∈ connections ∧ WellFormed blocks c) := by
  induction connections generalizing w with
  | nil => exact fun c hc => Or.inl hc
  | cons d rest ih =>
    intro c hc
    rcases ih c hc with hmem | ⟨hin, hok⟩
    · rcases add_cases blocks w d with ⟨hok, -, heq⟩ | ⟨finding, heq⟩
      · rw [heq, List.mem_append, List.mem_singleton] at hmem
        rcases hmem with hmem | rfl
        · exact Or.inl hmem
        · exact Or.inr ⟨List.mem_cons_self, hok⟩
      · rw [heq] at hmem
        exact Or.inl hmem
    · exact Or.inr ⟨List.mem_cons_of_mem _ hin, hok⟩

theorem foldl_add_sublist (connections : List Connection) (w : Wiring) :
    (connections.foldl (add blocks) w).accepted.Sublist (w.accepted ++ connections) := by
  induction connections generalizing w with
  | nil => simp
  | cons d rest ih =>
    refine (ih (w.add blocks d)).trans ?_
    rcases add_cases blocks w d with ⟨-, -, heq⟩ | ⟨finding, heq⟩
    · rw [heq, List.append_assoc]
      exact List.Sublist.refl _
    · rw [heq]
      exact (List.sublist_cons_self d rest).append_left _

theorem independent_foldl_add {connections : List Connection} {w : Wiring}
    (h : Independent w.accepted) :
    Independent (connections.foldl (add blocks) w).accepted := by
  induction connections generalizing w with
  | nil => exact h
  | cons d rest ih =>
    refine ih ?_
    rcases add_cases blocks w d with ⟨-, hfree, heq⟩ | ⟨finding, heq⟩
    · rw [heq, Independent, List.pairwise_append]
      refine ⟨h, List.pairwise_singleton _ _, ?_⟩
      intro a ha b hb
      rw [List.mem_singleton] at hb
      exact hb ▸ hfree a ha
    · rw [heq]; exact h

/-- **Well-formed connections into different inlets are all accepted**, and nothing is said about
them. -/
theorem foldl_add_of_independent {connections : List Connection} {w : Wiring}
    (hok : ∀ c ∈ connections, WellFormed blocks c)
    (hind : Independent (w.accepted ++ connections)) :
    connections.foldl (add blocks) w =
      { w with accepted := w.accepted ++ connections } := by
  induction connections generalizing w with
  | nil => simp
  | cons c rest ih =>
    have hnone : refusal? blocks w.accepted c = none := by
      refine refusal?_eq_none_iff.mpr ⟨hok c (by simp), ?_⟩
      intro d hd
      exact (List.pairwise_append.mp hind).2.2 d hd c (by simp)
    rw [List.foldl_cons, add, hnone]
    rw [ih (fun d hd => hok d (by simp [hd])) (by simpa using hind)]
    simp

end Wiring

namespace Snapshot

/-- An accepted connection is one of the snapshot's, and well formed. -/
theorem mem_wiring_accepted {s : Snapshot} {c : Connection} (h : c ∈ s.wiring.accepted) :
    c ∈ s.connections ∧ Wiring.WellFormed s.blocks c := by
  have := Wiring.mem_foldl_add c h
  simpa using this

theorem wiring_sublist (s : Snapshot) : s.wiring.accepted.Sublist s.connections :=
  Wiring.foldl_add_sublist s.connections {}

theorem wiring_independent (s : Snapshot) : Wiring.Independent s.wiring.accepted :=
  Wiring.independent_foldl_add List.Pairwise.nil

end Snapshot

end BlockScript
