import BlockScript.Proofs.Wiring
import BlockScript.Proofs.Forest
import BlockScript.Graph.Index

/-!
# The first connection into an inlet wins

Acceptance looks at what was accepted before; here is what comes out of it, said of the
connections alone.  A connection is accepted if and only if it is well formed and no well-formed
connection before it leads into the same inlet (`Wiring.IsFirst`), whatever became of the others.
Of each other connection one warning says what is wrong with it (`Wiring.Refused`).

What carries the induction is `Wiring.Settled`: each inlet of a well-formed connection so far has
an accepted one.
-/

namespace BlockScript

/-- The connection that a finding is about. -/
def Finding.connection? : Finding → Option Connection
  | .danglingConnection c | .selfConnection c | .unknownSocket c | .duplicateConnection c
  | .inputTaken c => some c
  | _ => none

namespace Wiring

variable {blocks : List Block}

/-! ### Which connections win, and what is wrong with the others -/

/-- The connections `rest`, each with all that come before it, `earlier` among them. -/
def turns (earlier : List Connection) : List Connection → List (List Connection × Connection)
  | [] => []
  | c :: rest => (earlier, c) :: turns (earlier ++ [c]) rest

/-- The connection is well formed, and it is the first such connection into its inlet. -/
def IsFirst (blocks : List Block) (earlier : List Connection) (c : Connection) : Prop :=
  WellFormed blocks c ∧ ∀ d ∈ earlier, WellFormed blocks d → sameInput c d = false

/-- Why a connection is not followed: the first of the conditions that it fails, and for one that
is well formed, whether it is the same as the connection `winner` that its inlet has. -/
inductive Refused (blocks : List Block) (accepted : List Connection) (c : Connection) :
    Diagnostic.Code → Prop
  | dangling (missing : c.source ∉ blocks.map Block.id ∨ c.target ∉ blocks.map Block.id) :
      Refused blocks accepted c .danglingConnection
  | self (source_mem : c.source ∈ blocks.map Block.id) (target_mem : c.target ∈ blocks.map Block.id)
      (eq : c.source = c.target) : Refused blocks accepted c .selfConnection
  | socket (source target : Block) (source_eq : blocks.find? (·.id == c.source) = some source)
      (target_eq : blocks.find? (·.id == c.target) = some target) (ne : c.source ≠ c.target)
      (missing : c.outlet ∉ source.outputs ∨ c.inlet ∉ target.inputs) :
      Refused blocks accepted c .unknownSocket
  | duplicate (wellFormed : WellFormed blocks c) (winner : Connection) (mem : winner ∈ accepted)
      (same : sameInput c winner) (eq : c = winner) : Refused blocks accepted c .duplicateConnection
  | taken (wellFormed : WellFormed blocks c) (winner : Connection) (mem : winner ∈ accepted)
      (same : sameInput c winner) (ne : c ≠ winner) :
      Refused blocks accepted c .inputAlreadyConnected

theorem Refused.mono {accepted accepted' : List Connection} {c : Connection}
    {code : Diagnostic.Code} (h : Refused blocks accepted c code) (hsub : accepted ⊆ accepted') :
    Refused blocks accepted' c code := by
  cases h with
  | dangling missing => exact .dangling missing
  | self source_mem target_mem eq => exact .self source_mem target_mem eq
  | socket source target source_eq target_eq ne missing =>
    exact .socket source target source_eq target_eq ne missing
  | duplicate wellFormed winner mem same eq => exact .duplicate wellFormed winner (hsub mem) same eq
  | taken wellFormed winner mem same ne => exact .taken wellFormed winner (hsub mem) same ne

instance (c : Connection) : Decidable (WellFormed blocks c) :=
  decidable_of_iff (refusal? blocks [] c = none) (by simp [refusal?_eq_none_iff])

instance (earlier : List Connection) (c : Connection) : Decidable (IsFirst blocks earlier c) :=
  inferInstanceAs (Decidable (_ ∧ _))

/-! ### One connection -/

theorem sameInput_iff {c d : Connection} :
    sameInput c d = true ↔ c.target = d.target ∧ c.inlet = d.inlet := by
  simp [sameInput]

theorem sameInput_trans {c d e : Connection} (h : sameInput c d = true)
    (h' : sameInput d e = true) : sameInput c e = true := by
  rw [sameInput_iff] at h h' ⊢
  exact ⟨h.1.trans h'.1, h.2.trans h'.2⟩

theorem refused_of_refusal? {accepted : List Connection} {c : Connection} {f : Finding}
    (h : refusal? blocks accepted c = some f) :
    f.connection? = some c ∧ f.level = .warning ∧ Refused blocks accepted c f.code := by
  cases hs : blocks.find? (·.id == c.source) with
  | none =>
    obtain rfl : Finding.danglingConnection c = f := by simpa [refusal?, hs] using h
    exact ⟨rfl, rfl, .dangling (Or.inl (by simpa using hs))⟩
  | some source =>
    cases ht : blocks.find? (·.id == c.target) with
    | none =>
      obtain rfl : Finding.danglingConnection c = f := by simpa [refusal?, hs, ht] using h
      exact ⟨rfl, rfl, .dangling (Or.inr (by simpa using ht))⟩
    | some target =>
      have hmem : ∀ {id b}, blocks.find? (·.id == id) = some b → id ∈ blocks.map Block.id := by
        intro id b hb
        exact List.mem_map.mpr ⟨b, List.mem_of_find?_eq_some hb, by simpa using List.find?_some hb⟩
      simp only [refusal?, hs, ht] at h
      split at h
      · rename_i hself
        obtain rfl := Option.some.inj h
        exact ⟨rfl, rfl, .self (hmem hs) (hmem ht) hself⟩
      · rename_i hself
        split at h
        · rename_i hsock
          obtain rfl := Option.some.inj h
          exact ⟨rfl, rfl, .socket source target hs ht hself hsock⟩
        · rename_i hsock
          rw [not_or, not_not, not_not] at hsock
          have hok : WellFormed blocks c := ⟨source, target, hs, ht, hself, hsock.1, hsock.2⟩
          split at h
          · rename_i hdup
            obtain rfl := Option.some.inj h
            exact ⟨rfl, rfl, .duplicate hok c hdup (sameInput_self c) rfl⟩
          · rename_i hdup
            split at h
            · rename_i hany
              obtain rfl := Option.some.inj h
              obtain ⟨winner, hwinner, hsame⟩ := List.any_eq_true.mp hany
              refine ⟨rfl, rfl, .taken hok winner hwinner hsame ?_⟩
              rintro rfl
              exact hdup hwinner
            · cases h

/-! ### All connections -/

/-- What was accepted so far is well formed and came before, and each well-formed connection so far
leads into an inlet that has an accepted one. -/
structure Settled (blocks : List Block) (earlier accepted : List Connection) : Prop where
  sound : ∀ a ∈ accepted, a ∈ earlier ∧ WellFormed blocks a
  covers : ∀ d ∈ earlier, WellFormed blocks d → ∃ a ∈ accepted, sameInput d a = true

namespace Settled

variable {earlier : List Connection} {w : Wiring} {c : Connection}

theorem refusal?_eq_none_iff_isFirst (h : Settled blocks earlier w.accepted) :
    refusal? blocks w.accepted c = none ↔ IsFirst blocks earlier c := by
  rw [refusal?_eq_none_iff, IsFirst]
  refine and_congr_right fun _ => ⟨fun hfree d hd hok => ?_, fun hfirst a ha => ?_⟩
  · obtain ⟨a, ha, hsame⟩ := h.covers d hd hok
    rw [← Bool.not_eq_true]
    intro hcd
    -- the inlet of `d` is that of `a`, and `a` was accepted
    have hca := sameInput_trans hcd hsame
    rw [hfree a ha] at hca
    cases hca
  · obtain ⟨hmem, hok⟩ := h.sound a ha
    exact hfirst a hmem hok

/-- **One step**: a first connection is accepted and nothing is said; of any other one warning is
given. -/
theorem add_cases (h : Settled blocks earlier w.accepted) (c : Connection) :
    Settled blocks (earlier ++ [c]) (w.add blocks c).accepted ∧
      ((IsFirst blocks earlier c ∧ w.add blocks c = { w with accepted := w.accepted ++ [c] }) ∨
        (¬ IsFirst blocks earlier c ∧ ∃ f, f.connection? = some c ∧ f.level = .warning ∧
          Refused blocks w.accepted c f.code ∧
          w.add blocks c = { w with findings := w.findings ++ [f] })) := by
  have hold : ∀ a ∈ w.accepted, a ∈ earlier ++ [c] ∧ WellFormed blocks a := by
    intro a ha
    exact ⟨List.mem_append_left _ (h.sound a ha).1, (h.sound a ha).2⟩
  cases hrefusal : refusal? blocks w.accepted c with
  | none =>
    have hfirst := h.refusal?_eq_none_iff_isFirst.mp hrefusal
    have hadd : w.add blocks c = { w with accepted := w.accepted ++ [c] } := by
      simp only [add, hrefusal]
    refine ⟨?_, Or.inl ⟨hfirst, hadd⟩⟩
    rw [hadd]
    refine ⟨fun a ha => ?_, fun d hd hok => ?_⟩
    · rcases List.mem_append.mp ha with ha | ha
      · exact hold a ha
      · obtain rfl := List.mem_singleton.mp ha
        exact ⟨by simp, hfirst.1⟩
    · rcases List.mem_append.mp hd with hd | hd
      · obtain ⟨a, ha, hsame⟩ := h.covers d hd hok
        exact ⟨a, List.mem_append_left _ ha, hsame⟩
      · obtain rfl := List.mem_singleton.mp hd
        exact ⟨d, by simp, sameInput_self d⟩
  | some f =>
    have hnot : ¬ IsFirst blocks earlier c := by
      rw [← h.refusal?_eq_none_iff_isFirst, hrefusal]
      simp
    have hadd : w.add blocks c = { w with findings := w.findings ++ [f] } := by
      simp only [add, hrefusal]
    obtain ⟨habout, hlevel, hrefused⟩ := refused_of_refusal? hrefusal
    refine ⟨?_, Or.inr ⟨hnot, f, habout, hlevel, hrefused, hadd⟩⟩
    rw [hadd]
    refine ⟨hold, fun d hd hok => ?_⟩
    rcases List.mem_append.mp hd with hd | hd
    · exact h.covers d hd hok
    · obtain rfl := List.mem_singleton.mp hd
      -- it is well formed and was not the first, so the inlet has one
      by_contra hnone
      refine hnot ⟨hok, fun e he hoke => ?_⟩
      rw [← Bool.not_eq_true]
      intro hsame
      obtain ⟨a, ha, hea⟩ := h.covers e he hoke
      exact hnone ⟨a, ha, sameInput_trans hsame hea⟩

end Settled

/-- **A whole run**: the first connections are accepted in order, and of the others one warning each
is given, in order. -/
theorem foldl_add_of_settled {rest earlier : List Connection} {w : Wiring}
    (h : Settled blocks earlier w.accepted) :
    (rest.foldl (add blocks) w).accepted = w.accepted ++
        ((turns earlier rest).filter fun t => IsFirst blocks t.1 t.2).map Prod.snd ∧
      ∃ findings, (rest.foldl (add blocks) w).findings = w.findings ++ findings ∧
        List.Forall₂ (fun c f => f.connection? = some c ∧ f.level = .warning ∧
            Refused blocks (rest.foldl (add blocks) w).accepted c f.code)
          (((turns earlier rest).filter fun t => ¬ IsFirst blocks t.1 t.2).map Prod.snd)
          findings := by
  induction rest generalizing earlier w with
  | nil => exact ⟨by simp [turns], [], by simp, by simp [turns]⟩
  | cons c rest ih =>
    obtain ⟨hsettled, hstep⟩ := h.add_cases c
    obtain ⟨haccepted, findings, hfindings, hwarned⟩ := ih hsettled
    rw [List.foldl_cons]
    rcases hstep with ⟨hfirst, hadd⟩ | ⟨hnot, f, habout, hlevel, hrefused, hadd⟩
    · refine ⟨?_, findings, ?_, ?_⟩
      · rw [haccepted, hadd]
        simp [turns, hfirst]
      · rw [hfindings, hadd]
      · simpa [turns, hfirst] using hwarned
    · refine ⟨?_, f :: findings, ?_, ?_⟩
      · rw [haccepted, hadd]
        simp [turns, hnot]
      · rw [hfindings, hadd]
        simp
      · have hsub : w.accepted ⊆ (rest.foldl (add blocks) (w.add blocks c)).accepted := by
          rw [haccepted, hadd]
          exact List.subset_append_left _ _
        simp only [turns, hnot, not_false_eq_true, decide_true, List.filter_cons_of_pos,
          List.map_cons]
        exact .cons ⟨habout, hlevel, hrefused.mono hsub⟩ hwarned

end Wiring

namespace Snapshot

/-- The first connections are accepted, and what wiring reports is one warning for each other. -/
theorem wiring_spec (s : Snapshot) :
    s.wiring.accepted = ((Wiring.turns [] s.connections).filter fun t =>
        Wiring.IsFirst s.blocks t.1 t.2).map Prod.snd ∧
      List.Forall₂ (fun c f => f.connection? = some c ∧ f.level = .warning ∧
          Wiring.Refused s.blocks s.wiring.accepted c f.code)
        (((Wiring.turns [] s.connections).filter fun t =>
          ¬ Wiring.IsFirst s.blocks t.1 t.2).map Prod.snd) s.wiring.findings := by
  have hstart : Wiring.Settled s.blocks [] ({} : Wiring).accepted := ⟨by simp, by simp⟩
  obtain ⟨haccepted, findings, hfindings, hwarned⟩ :=
    @Wiring.foldl_add_of_settled s.blocks s.connections [] {} hstart
  obtain rfl : s.wiring.findings = findings := hfindings
  exact ⟨haccepted, hwarned⟩

theorem exists_connection_of_mem_wiring {s : Snapshot} {f : Finding}
    (hf : f ∈ s.wiring.findings) : ∃ c, f.connection? = some c := by
  obtain ⟨refused, hwarned⟩ : ∃ refused, List.Forall₂ (fun c f => Finding.connection? f = some c)
      refused s.wiring.findings := ⟨_, s.wiring_spec.2.imp fun _ _ h => h.1⟩
  generalize s.wiring.findings = findings at hf hwarned
  induction hwarned with
  | nil => cases hf
  | cons hwarning _ ih =>
    rcases List.mem_cons.mp hf with rfl | hf
    · exact ⟨_, hwarning⟩
    · exact ih hf

end Snapshot

/-- **The first well-formed connection into each inlet wins.**  The connections of the graph are, in
order, those with no well-formed connection before them into the same inlet.  Of each other
connection indexing reports one warning, in order: that a block is missing, that the connection
leads back into its block, that a socket is missing, or else that its inlet has the same connection
or another one.  Nothing that indexing reports besides is about a connection. -/
theorem first_connection_wins (s : Snapshot) :
    s.index.connections =
        ((Wiring.turns [] s.connections).filter fun t =>
          Wiring.IsFirst s.blocks t.1 t.2).map Prod.snd ∧
      ∃ warnings others, s.findings = warnings ++ others ∧
        List.Forall₂ (fun c f => f.connection? = some c ∧ f.level = .warning ∧
            Wiring.Refused s.blocks s.index.connections c f.code)
          (((Wiring.turns [] s.connections).filter fun t =>
            ¬ Wiring.IsFirst s.blocks t.1 t.2).map Prod.snd) warnings ∧
        ∀ f ∈ others, f.connection? = none := by
  obtain ⟨haccepted, hwarned⟩ := s.wiring_spec
  refine ⟨haccepted, s.wiring.findings, s.nesting.findings, rfl, hwarned, fun f hf => ?_⟩
  rcases Snapshot.mem_nesting_findings hf with hlisting | ⟨id, rfl⟩
  · cases f with
    | danglingChild | selfNesting | adoptedChild => rfl
    | _ => cases hlisting
  · rfl

/-- Connections of all kinds, three of them well formed and into the one inlet of `c`. -/
def contested : Snapshot where
  blocks := [{ id := "a" }, { id := "b" }, { id := "c" }]
  connections := [
    { source := "a", target := "gone" }, { source := "a", outlet := "Err", target := "c" },
    { source := "b", target := "c" }, { source := "a", target := "c" },
    { source := "b", target := "c" }, { source := "c", target := "c" }]

example : contested.index.connections = [{ source := "b", target := "c" }] ∧
    contested.findings.map Finding.code = [.danglingConnection, .unknownSocket,
      .inputAlreadyConnected, .duplicateConnection, .selfConnection] := by
  decide

end BlockScript
