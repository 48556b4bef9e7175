import CryptoCoin.Consensus.Accounting
import CryptoCoin.Consensus.Equivocation

/-!
# The engine with the collectors of the source

`collectVotes` and `collectViewChanges` return nothing, and nobody is not a
super-majority. With these collectors prevotes, precommits, commits and view changes leave
the engine as it was, whoever has sent them and in whatever order. The engine proposes,
which ends its call, prevotes every proposal of its round that another proposer sends, and
moves on by timeouts and new views. It never locks, precommits or decides (`shipped_run`).
-/

namespace CryptoCoin

namespace Consensus

open Protocol (ValidatorId PrivateKey Timestamp)

/-- The messages that only the collectors could give a meaning. -/
def ConsensusMessage.IsInert : ConsensusMessage → Prop
  | .prevote _ | .precommit _ | .commit _ | .viewChange _ => True
  | .proposal _ | .ownProposal _ | .newView _ => False

/-- Nothing is locked, valid or decided, and no vote but a prevote was cast. -/
structure Undecided (s : ConsensusState) : Prop where
  lockedBlock : s.csLockedBlock = none
  lockedRound : s.csLockedRound = none
  validBlock : s.csValidBlock = none
  validRound : s.csValidRound = none
  decision : s.csDecision = none
  phase : s.csStep = .proposePhase ∨ s.csStep = .prevotePhase

/-- No commit and no view change is counted, and every completed round is a timeout. -/
structure OnlyTimeouts (c : ConsensusMetrics) : Prop where
  blocksCommitted : c.cmBlocksCommitted = 0
  viewChanges : c.cmViewChanges = 0
  roundsCompleted : c.cmRoundsCompleted = c.cmTimeouts

/-! ### Tasks -/

section Tasks

variable {answers : Answers} {engine : ConsensusEngine}

theorem Answers.Stubbed.eq_nil (h : answers.Stubbed) (engine : ConsensusEngine) :
    answers.prevotes = [] ∧ answers.precommits = [] ∧ answers.viewChanges = [] :=
  ⟨h.prevotes engine ⟨0⟩, h.precommits engine ⟨0⟩, h.viewChanges engine 0⟩

theorem Undecided.csStep_ne (h : Undecided engine.ceState) :
    engine.ceState.csStep ≠ .commitPhase := by
  rcases h.phase with hstep | hstep
  · rw [hstep]
    exact nofun
  · rw [hstep]
    exact nofun

theorem perform_inert (h : answers.Stubbed) (hstate : Undecided engine.ceState)
    {msg : ConsensusMessage} (hmsg : msg.IsInert) :
    perform answers engine (.applyConsensusMessage msg) = some (engine, []) := by
  obtain ⟨hprevotes, hprecommits, hviews⟩ := h.eq_nil engine
  have hnone : superMajority engine.ceState.csValidatorSet ∅ ≠ true := by
    rw [superMajority_empty]
    exact Bool.false_ne_true
  cases msg with
  | proposal p => exact hmsg.elim
  | ownProposal p => exact hmsg.elim
  | newView nv => exact hmsg.elim
  | prevote p =>
      have hself : handlePrevote (fun _ _ _ => answers.prevotes) engine p = engine := by
        rw [hprevotes]
        exact handlePrevote_eq_self hnone hnone
      rw [perform, applyConsensusMessage, hself]
  | precommit p =>
      have hself : handlePrecommit (fun _ _ _ => answers.precommits) answers.now engine p =
          engine := by
        rw [hprecommits]
        exact handlePrecommit_eq_self hnone
      rw [perform, applyConsensusMessage, hself]
  | commit c =>
      have hself : handleCommit engine c = engine := if_neg fun hcommit =>
        hstate.csStep_ne hcommit.1
      rw [perform, applyConsensusMessage, hself]
  | viewChange vc =>
      have hself : handleViewChange (fun _ _ => answers.viewChanges) engine vc = (engine, []) := by
        rw [hviews]
        exact if_neg hnone
      rw [perform, applyConsensusMessage, hself]

theorem Task.move_stubbed (h : answers.Stubbed) (hstate : Undecided engine.ceState)
    (task : Task) :
    task.move answers engine = .stay ∨ task.move answers engine = .prevote ∨
      (∃ b, task.move answers engine = .propose b) ∨
      ∃ round, task.move answers engine = .enter round := by
  obtain ⟨hprevotes, hprecommits, hviews⟩ := h.eq_nil engine
  have hnone : superMajority engine.ceState.csValidatorSet ∅ ≠ true := by
    rw [superMajority_empty]
    exact Bool.false_ne_true
  cases task with
  | runConsensusRound =>
      rw [Task.move]
      split
      · exact Or.inr (Or.inr (Or.inl ⟨_, rfl⟩))
      · exact Or.inl rfl
  | applyConsensusMessage msg =>
      cases msg with
      | proposal p =>
          rw [Task.move]
          split
          · exact Or.inr (Or.inl rfl)
          · exact Or.inl rfl
      | ownProposal p => exact Or.inl rfl
      | prevote p =>
          rw [Task.move, hprevotes]
          exact Or.inl ((if_neg hnone).trans (if_neg hnone))
      | precommit p =>
          rw [Task.move, hprecommits]
          exact Or.inl (if_neg hnone)
      | commit c =>
          rw [Task.move, if_neg fun hcommit => hstate.csStep_ne hcommit.1]
          exact Or.inl rfl
      | viewChange vc =>
          rw [Task.move, hviews]
          exact Or.inl (if_neg hnone)
      | newView nv => exact Or.inr (Or.inr (Or.inr ⟨_, rfl⟩))

theorem Task.count_stubbed (h : answers.Stubbed) (task : Task) (c : ConsensusMetrics) :
    task.count answers engine c = c := by
  rcases task.enters_view_or answers engine with ⟨vc, rfl⟩ | ⟨nv, rfl⟩ | ⟨_, hcount⟩
  · rw [Task.count, (h.eq_nil engine).2.2, if_neg]
    change superMajority engine.ceState.csValidatorSet ∅ ≠ true
    rw [superMajority_empty]
    exact Bool.false_ne_true
  · rfl
  · exact hcount c

end Tasks

/-! ### Steps -/

structure Shipped (m : Machine) : Prop where
  state : Undecided m.engine.ceState
  metrics : OnlyTimeouts m.engine.ceMetrics

theorem shipped_ofEngine (now : Timestamp) (config : ConsensusConfig) (privKey : PrivateKey)
    (validator : ValidatorId) (vset : ValidatorSet) :
    Shipped (.ofEngine (newConsensusEngine now config privKey validator vset)) where
  state := ⟨rfl, rfl, rfl, rfl, rfl, Or.inl rfl⟩
  metrics := ⟨rfl, rfl, rfl⟩

def Input.Stubbed : Input → Prop
  | .resume answers => answers.Stubbed
  | _ => True

theorem Shipped.step {m : Machine} (h : Shipped m) {i : Input} (hi : i.Stubbed) :
    Shipped (m.step i) := by
  obtain ⟨hstate, hmetrics⟩ := h
  cases i with
  | resume answers =>
      cases hpending : m.pending with
      | nil =>
          have hself : m.step (.resume answers) = m := by
            simp only [Machine.step, Machine.resume, hpending]
          rw [hself]
          exact ⟨hstate, hmetrics⟩
      | cons task rest =>
          have hcount : m.count m.engine.ceMetrics (.resume answers) = m.engine.ceMetrics := by
            simp only [Machine.count, hpending]
            exact Task.count_stubbed hi task _
          constructor
          · rw [Machine.ceState_step, Machine.move_resume hpending]
            rcases task.move_stubbed hi hstate with hmove | hmove | ⟨b, hmove⟩ | ⟨round, hmove⟩
            · rwa [hmove]
            · rw [hmove]
              exact { hstate with phase := Or.inr rfl }
            · rw [hmove]
              exact { hstate with phase := Or.inr rfl }
            · rw [hmove]
              exact { hstate with phase := Or.inl rfl }
          · rw [Machine.ceMetrics_step, Machine.move_resume hpending, hcount]
            rcases task.move_stubbed hi hstate with hmove | hmove | ⟨b, hmove⟩ | ⟨round, hmove⟩
            · rwa [hmove]
            · rwa [hmove]
            · rw [hmove]
              exact ⟨hmetrics.blocksCommitted, hmetrics.viewChanges, hmetrics.roundsCompleted⟩
            · rwa [hmove]
  | timeoutHandler now =>
      by_cases hidle : m.pending = []
      · have hmove : m.move (.timeoutHandler now) =
            .startNextRound now m.engine.ceConfig.ccTimeoutPropose := if_pos hidle
        have hcount : m.count m.engine.ceMetrics (.timeoutHandler now) =
            { m.engine.ceMetrics with cmTimeouts := m.engine.ceMetrics.cmTimeouts + 1 } :=
          if_pos hidle
        constructor
        · rw [Machine.ceState_step, hmove]
          exact { hstate with phase := Or.inl rfl }
        · rw [Machine.ceMetrics_step, hmove, hcount]
          exact ⟨hmetrics.blocksCommitted, hmetrics.viewChanges,
            congrArg (· + 1) hmetrics.roundsCompleted⟩
      · have hself : m.step (.timeoutHandler now) = m := if_neg hidle
        rw [hself]
        exact ⟨hstate, hmetrics⟩
  | _ =>
      constructor
      · rw [Machine.ceState_step]
        exact hstate
      · rw [Machine.ceMetrics_step]
        exact hmetrics

/-- The messages that are left: the engine's proposals, without a valid round, and prevotes for
a block. -/
def ConsensusMessage.IsOpening : ConsensusMessage → Prop
  | .ownProposal p => p.pmValidRound = none
  | .prevote p => p.prBlockHash ≠ none
  | _ => False

theorem Shipped.isOpening {m : Machine} (h : Shipped m) {i : Input} (hi : i.Stubbed)
    {msg : ConsensusMessage} (heffect : m.effect i = .broadcast msg) : msg.IsOpening := by
  obtain ⟨answers, _, rfl, ⟨p, _, _, rfl⟩ | ⟨p, value, _, hpolka, rfl⟩ | ⟨_, rfl⟩⟩ :=
    Machine.effect_eq_broadcast heffect
  · exact Option.some_ne_none p.pmBlockHash
  · have hnone : superMajority m.engine.ceState.csValidatorSet ∅ ≠ true := by
      rw [superMajority_empty]
      exact Bool.false_ne_true
    rw [(Answers.Stubbed.eq_nil hi m.engine).1] at hpolka
    have hstay : polka m.engine.ceState.csValidatorSet [] = none :=
      (if_neg hnone).trans (if_neg hnone)
    rw [hstay] at hpolka
    cases hpolka
  · exact h.state.validRound

/-- With the collectors of the source a new engine never locks, precommits, decides or
changes its view, whatever messages it gets. Its rounds advance by timeouts and new views, it
broadcasts nothing but proposals and prevotes, and votes, commits and view changes that it
applies leave it as it was. -/
theorem shipped_run (now : Timestamp) (config : ConsensusConfig) (privKey : PrivateKey)
    (validator : ValidatorId) (vset : ValidatorSet) {inputs : List Input}
    (hstub : ∀ i ∈ inputs, i.Stubbed) :
    let first := Machine.ofEngine (newConsensusEngine now config privKey validator vset)
    Undecided (Runs.run Machine.step first inputs).engine.ceState ∧
      OnlyTimeouts (Runs.run Machine.step first inputs).engine.ceMetrics ∧
      (∀ msg ∈ (Runs.run Machine.step first inputs).broadcasts, msg.IsOpening) ∧
      ∀ x ∈ Runs.trace Machine.step first inputs, ∀ answers msg rest, x.2 = .resume answers →
        x.1.pending = .applyConsensusMessage msg :: rest → msg.IsInert →
        x.1.step x.2 = { x.1 with pending := rest } := by
  intro first
  have hrun : ∀ pre : List Input, (∀ i ∈ pre, i.Stubbed) →
      Shipped (Runs.run Machine.step first pre) := by
    intro pre hpre
    refine Runs.invariant (P := Shipped) (shipped_ofEngine now config privKey validator vset) ?_
    intro x hx h
    obtain ⟨before, after, rfl, _⟩ := Runs.mem_trace_iff.mp hx
    exact h.step (hpre x.2 (by simp))
  have htrace : ∀ x ∈ Runs.trace Machine.step first inputs, Shipped x.1 ∧ x.2.Stubbed := by
    intro x hx
    obtain ⟨before, after, hinputs, hstate⟩ := Runs.mem_trace_iff.mp hx
    refine ⟨?_, hstub x.2 (by simp [hinputs])⟩
    rw [hstate]
    exact hrun before fun i hi => hstub i (by simp [hinputs, hi])
  refine ⟨(hrun inputs hstub).state, (hrun inputs hstub).metrics, ?_, ?_⟩
  · intro msg hmsg
    obtain ⟨x, hx, heffect⟩ := (Machine.mem_broadcasts_run _ rfl inputs msg).mp hmsg
    exact (htrace x hx).1.isOpening (htrace x hx).2 heffect
  · intro x hx answers msg rest hinput hpending hinert
    obtain ⟨hshipped, hstubbed⟩ := htrace x hx
    rw [hinput] at hstubbed ⊢
    simp only [Machine.step, Machine.resume, hpending,
      perform_inert hstubbed hshipped.state hinert]
    rfl

namespace FourValidators

/-- The second validator prevotes the first one's proposal, applies its own prevote in a round,
and times out. -/
def heardRound : List Input :=
  [.applyConsensusMessage (.proposal (proposalOf (block 1))), .resume silence,
    .runConsensusRound, .resume silence, .resume silence, .timeoutHandler ⟨0⟩]

end FourValidators

open FourValidators in
theorem shipped_heardRound :
    (∀ i ∈ heardRound, i.Stubbed) ∧
      (Runs.run Machine.step (.ofEngine newEngine) heardRound).broadcasts =
        [.prevote (prevoteMsg newEngine (some (block 1)))] ∧
      ∀ msg ∈ (Runs.run Machine.step (.ofEngine newEngine) heardRound).broadcasts,
        msg.IsOpening := by
  have hstub : ∀ i ∈ heardRound, i.Stubbed := by
    intro i hi
    simp only [heardRound, List.mem_cons, List.not_mem_nil, or_false] at hi
    rcases hi with rfl | rfl | rfl | rfl | rfl | rfl
    · trivial
    · exact stubbed_silence
    · trivial
    · exact stubbed_silence
    · exact stubbed_silence
    · trivial
  exact ⟨hstub, by decide +kernel, (shipped_run ⟨0⟩ ⟨1000⟩ ⟨List.replicate 32 9⟩ (validator 1)
    vset hstub).2.2.1⟩

end Consensus

end CryptoCoin
