import CryptoCoin.Consensus.Finality
import CryptoCoin.Consensus.Moves

/-!
# How decisions come about

Two results on the way to a decision.

* The engine is in the commit phase only with a decision. Commit messages therefore
  change nothing, and only `handlePrecommit` ever makes a decision
  (`commit_phase_decided`).
* With `collectVotes` as the source has it, `handlePrecommit` makes none either. The
  stub returns no votes, and no votes are not a super-majority, so the messages of a
  whole quorum leave the engine as it was (`precommitQuorum_undecided`).
-/

namespace CryptoCoin

namespace Consensus

open Protocol (ValidatorId PrivateKey Timestamp)

/-! ### The commit phase -/

def CommitDecided (s : ConsensusState) : Prop :=
  s.csStep = .commitPhase → s.csDecision.isSome = true

/-- Every move to the commit phase decides, and no move takes a decision back. -/
theorem CommitDecided.apply {s : ConsensusState} (h : CommitDecided s) (mv : Move) :
    CommitDecided (mv.apply s) := by
  intro hstep
  cases mv with
  | stay => exact h hstep
  | decide blockHash => rfl
  | finalize blockHash => rfl
  | _ => cases hstep

theorem commitDecided_newConsensusEngine (now : Timestamp) (config : ConsensusConfig)
    (privKey : PrivateKey) (validator : ValidatorId) (vset : ValidatorSet) :
    CommitDecided (newConsensusEngine now config privKey validator vset).ceState := by
  intro hstep
  cases hstep

theorem CommitDecided.run {m : Machine} (h : CommitDecided m.engine.ceState)
    (inputs : List Input) : CommitDecided (Runs.run Machine.step m inputs).engine.ceState := by
  apply Runs.invariant (P := fun m : Machine => CommitDecided m.engine.ceState) h
  rintro ⟨m', i⟩ _ hm
  rw [Machine.ceState_step]
  exact hm.apply _

/-- A commit message for the decision writes the decision again. -/
theorem ceState_handleCommit_eq_self {engine : ConsensusEngine}
    (h : CommitDecided engine.ceState) (c : CommitMsg) :
    (handleCommit engine c).ceState = engine.ceState := by
  by_cases hcommit : engine.ceState.csStep = .commitPhase ∧
      c.cmBlockHash = engine.ceState.csDecision.getD c.cmBlockHash
  · obtain ⟨b, hb⟩ := Option.isSome_iff_exists.mp (h hcommit.1)
    have hhash : some c.cmBlockHash = engine.ceState.csDecision := by
      rw [hcommit.2, hb, Option.getD_some]
    have hfinal : handleCommit engine c = finalizeBlock engine c.cmBlockHash := if_pos hcommit
    rw [hfinal, finalizeBlock, ConsensusEngine.modifyState, hhash]
  · have hself : handleCommit engine c = engine := if_neg hcommit
    rw [hself]

theorem exists_precommit_of_csDecision_ne {answers : Answers} {engine : ConsensusEngine}
    {task : Task} (h : CommitDecided engine.ceState)
    (hne : ((task.move answers engine).apply engine.ceState).csDecision ≠
      engine.ceState.csDecision) :
    ∃ p, task = .applyConsensusMessage (.precommit p) := by
  cases task with
  | runConsensusRound =>
      rw [Task.move] at hne
      split at hne <;> exact absurd rfl hne
  | applyConsensusMessage msg =>
      cases msg with
      | precommit p => exact ⟨p, rfl⟩
      | commit c =>
          rw [← ceState_handleCommit, ceState_handleCommit_eq_self h] at hne
          exact absurd rfl hne
      | prevote p =>
          rw [Task.move] at hne
          split at hne
          · exact absurd rfl hne
          · split at hne <;> exact absurd rfl hne
      | proposal p =>
          rw [Task.move] at hne
          split at hne <;> exact absurd rfl hne
      | viewChange vc =>
          rw [Task.move] at hne
          split at hne <;> exact absurd rfl hne
      | ownProposal p => exact absurd rfl hne
      | newView nv => exact absurd rfl hne

namespace Machine

theorem exists_handlePrecommit_of_csDecision_ne {m : Machine} {i : Input}
    (h : CommitDecided m.engine.ceState)
    (hne : (m.step i).engine.ceState.csDecision ≠ m.engine.ceState.csDecision) :
    ∃ answers p rest, i = .resume answers ∧
      m.pending = .applyConsensusMessage (.precommit p) :: rest ∧
      (m.step i).engine =
        handlePrecommit (fun _ _ _ => answers.precommits) answers.now m.engine p := by
  rw [ceState_step] at hne
  cases i with
  | resume answers =>
      cases hpending : m.pending with
      | nil =>
          simp only [move, hpending] at hne
          exact absurd rfl hne
      | cons task rest =>
          rw [move_resume hpending] at hne
          obtain ⟨p, rfl⟩ := exists_precommit_of_csDecision_ne h hne
          refine ⟨answers, p, rest, rfl, rfl, ?_⟩
          simp only [step, resume, hpending, perform, Consensus.applyConsensusMessage]
  | timeoutHandler now =>
      simp only [move] at hne
      split at hne <;> exact absurd rfl hne
  | _ => exact absurd rfl hne

end Machine

/-- In every state that a new engine reaches, the commit phase comes with a decision,
commit messages leave the consensus state unchanged, and a step that changes the decision
runs `handlePrecommit`. -/
theorem commit_phase_decided (now : Timestamp) (config : ConsensusConfig)
    (privKey : PrivateKey) (validator : ValidatorId) (vset : ValidatorSet)
    (inputs : List Input) :
    Runs.Always Machine.step
      (fun m =>
        (m.engine.ceState.csStep = .commitPhase → m.engine.ceState.csDecision.isSome = true) ∧
        (∀ c, (handleCommit m.engine c).ceState = m.engine.ceState) ∧
        ∀ i, (m.step i).engine.ceState.csDecision ≠ m.engine.ceState.csDecision →
          ∃ answers p rest, i = .resume answers ∧
            m.pending = .applyConsensusMessage (.precommit p) :: rest ∧
            (m.step i).engine =
              handlePrecommit (fun _ _ _ => answers.precommits) answers.now m.engine p)
      (.ofEngine (newConsensusEngine now config privKey validator vset)) inputs := by
  intro pre post _
  have hdecided := CommitDecided.run
    (m := .ofEngine (newConsensusEngine now config privKey validator vset))
    (commitDecided_newConsensusEngine now config privKey validator vset) pre
  refine ⟨hdecided, ceState_handleCommit_eq_self hdecided, ?_⟩
  intro i
  exact Machine.exists_handlePrecommit_of_csDecision_ne hdecided

/-! ### The collectors of the source -/

/-- A stub: no votes, whatever the engine has received. -/
def collectVotes {α : Type} (_engine : ConsensusEngine) (_phase : ConsensusStep)
    (_round : ConsensusRound) : List α := []

def collectViewChanges (_engine : ConsensusEngine) (_targetView : UInt64) :
    List ViewChange := []

structure Answers.Stubbed (answers : Answers) : Prop where
  prevotes : ∀ engine round, answers.prevotes = collectVotes engine .prevotePhase round
  precommits : ∀ engine round, answers.precommits = collectVotes engine .precommitPhase round
  viewChanges : ∀ engine view, answers.viewChanges = collectViewChanges engine view

theorem superMajority_empty (vset : ValidatorSet) : superMajority vset ∅ = false := by
  have hpower : voterPower vset.vsValidators ∅ = 0 := by
    simp [voterPower]
  rw [superMajority, hpower]
  simp

theorem handlePrecommit_collectVotes (now : Timestamp) (engine : ConsensusEngine)
    (p : PrecommitMsg) : handlePrecommit collectVotes now engine p = engine := by
  apply handlePrecommit_eq_self
  change superMajority engine.ceState.csValidatorSet ∅ ≠ true
  rw [superMajority_empty]
  exact Bool.false_ne_true

/-! ### A quorum of precommits -/

structure PrecommitQuorum (engine : ConsensusEngine) (blockHash : BlockHash)
    (precommits : List PrecommitMsg) : Prop where
  undecided : engine.ceState.csDecision = none
  votes : ∀ p ∈ precommits,
    p.pcBlockHash = some blockHash ∧ p.pcRound = engine.ceState.csRound
  quorum : superMajority engine.ceState.csValidatorSet (precommitSenders precommits) = true

/-- The calls of `applyConsensusMessage` with precommits, one after the other, each with
the answers it gets. -/
def deliveries (calls : List (PrecommitMsg × Answers)) : List Input :=
  calls.flatMap fun call => [.applyConsensusMessage (.precommit call.1), .resume call.2]

/-- With the stubs a call with a precommit leaves everything as it was. -/
theorem step_step_precommit (engine : ConsensusEngine) (drained : List ConsensusMessage)
    (p : PrecommitMsg) {answers : Answers} (h : answers.Stubbed) :
    ((Machine.mk engine [] drained).step (.applyConsensusMessage (.precommit p))).step
        (.resume answers) = ⟨engine, [], drained⟩ := by
  have hself : handlePrecommit (fun _ _ _ => answers.precommits) answers.now engine p =
      engine := by
    have hstub : (fun _ _ _ => answers.precommits) =
        (collectVotes : ConsensusEngine → ConsensusStep → ConsensusRound → List PrecommitMsg) := by
      funext engine phase round
      exact h.precommits engine round
    rw [hstub, handlePrecommit_collectVotes]
  simp only [Machine.step, if_true, Machine.resume, perform, applyConsensusMessage, hself]
  rfl

theorem run_deliveries (engine : ConsensusEngine) {calls : List (PrecommitMsg × Answers)}
    (h : ∀ call ∈ calls, call.2.Stubbed) :
    Runs.run Machine.step (.ofEngine engine) (deliveries calls) = .ofEngine engine := by
  induction calls with
  | nil => rfl
  | cons call calls ih =>
      obtain ⟨hcall, hcalls⟩ := List.forall_mem_cons.mp h
      have hfirst := step_step_precommit engine [] call.1 hcall
      calc Runs.run Machine.step (.ofEngine engine) (deliveries (call :: calls))
          = Runs.run Machine.step (((Machine.ofEngine engine).step
              (.applyConsensusMessage (.precommit call.1))).step (.resume call.2))
              (deliveries calls) := rfl
        _ = Runs.run Machine.step (.ofEngine engine) (deliveries calls) := by
            rw [Machine.ofEngine, hfirst]
        _ = .ofEngine engine := ih hcalls

/-- With the stubs no quorum of precommits decides, in whatever order it arrives. -/
theorem precommitQuorum_undecided {engine : ConsensusEngine} {blockHash : BlockHash}
    {precommits : List PrecommitMsg} (h : PrecommitQuorum engine blockHash precommits) :
    ∀ calls : List (PrecommitMsg × Answers), (calls.map Prod.fst).Perm precommits →
      (∀ call ∈ calls, call.2.Stubbed) →
      ¬ ((Runs.run Machine.step (.ofEngine engine)
            (deliveries calls)).engine.ceState.csDecision = some blockHash ∧
          (Runs.run Machine.step (.ofEngine engine)
            (deliveries calls)).engine.ceState.csStep = .commitPhase) := by
  intro calls _ hstub
  rw [run_deliveries engine hstub, Machine.ofEngine, h.undecided]
  rintro ⟨hdecision, _⟩
  cases hdecision

namespace FourValidators

theorem stubbed_silence : silence.Stubbed :=
  ⟨fun _ _ => rfl, fun _ _ => rfl, fun _ _ => rfl⟩

def quorumCalls : List (PrecommitMsg × Answers) :=
  (precommitsOn (block 1) ⟨0⟩).map fun p => (p, silence)

theorem precommitQuorum_newEngine :
    PrecommitQuorum newEngine (block 1) (precommitsOn (block 1) ⟨0⟩) :=
  ⟨rfl, by decide, by decide +kernel⟩

end FourValidators

open FourValidators in
theorem quorumCalls_undecided :
    PrecommitQuorum newEngine (block 1) (precommitsOn (block 1) ⟨0⟩) ∧
      ¬ ((Runs.run Machine.step (.ofEngine newEngine)
            (deliveries quorumCalls)).engine.ceState.csDecision = some (block 1) ∧
          (Runs.run Machine.step (.ofEngine newEngine)
            (deliveries quorumCalls)).engine.ceState.csStep = .commitPhase) := by
  refine ⟨precommitQuorum_newEngine, ?_⟩
  apply precommitQuorum_undecided precommitQuorum_newEngine
  · rfl
  · intro call hcall
    obtain ⟨p, _, rfl⟩ := List.mem_map.mp hcall
    exact stubbed_silence

open FourValidators in
/-- After three of four equal validators have sent their precommits for block 1, the
engine is undecided and in its first phase. -/
theorem quorumCalls_propose :
    PrecommitQuorum newEngine (block 1) (precommitsOn (block 1) ⟨0⟩) ∧
      (Runs.run Machine.step (.ofEngine newEngine)
        (deliveries quorumCalls)).engine.ceState.csDecision = none ∧
      (Runs.run Machine.step (.ofEngine newEngine)
        (deliveries quorumCalls)).engine.ceState.csStep = .proposePhase := by
  exact ⟨precommitQuorum_newEngine, by decide +kernel, by decide +kernel⟩

end Consensus

end CryptoCoin
