import CryptoCoin.Consensus.Machine

/-!
# What a step does to the consensus state

`Move` lists the updates that the functions of the engine make to the consensus state.
`Machine.move` reads off the input of a step and the machine it meets which of them it
makes, and `ceState_step` says that the step does nothing else to the state. Invariants
of the state are proved for the moves, with no look at the handlers.

The effects of `CryptoCoin.Consensus.Machine` say what others see of a step. Moves say
what the engine itself remembers: the phase, the locks and the valid value.
-/

namespace CryptoCoin

namespace Consensus

open Protocol (Timestamp)

/-! ### Moves -/

/-- An update of the consensus state. -/
inductive Move where
  | stay
  | propose (blockHash : Option BlockHash)
  | prevote
  | precommit
  | lock (value : Option BlockHash)
  | decide (blockHash : BlockHash)
  | finalize (blockHash : BlockHash)
  | enter (round : ConsensusRound)
  | startNextRound (now : Timestamp) (timeout : UInt64)

def Move.apply (s : ConsensusState) : Move → ConsensusState
  | .stay => s
  | .propose blockHash => { s with csProposedBlock := some blockHash, csStep := .prevotePhase }
  | .prevote => { s with csStep := .prevotePhase }
  | .precommit => { s with csStep := .precommitPhase }
  | .lock value => lockOn value s.csRound s
  | .decide blockHash => { s with csDecision := some blockHash, csStep := .commitPhase }
  | .finalize blockHash => { s with csDecision := some blockHash }
  | .enter round => { s with csRound := round, csStep := .proposePhase }
  | .startNextRound now timeout =>
      { s with
        csRound := ⟨s.csRound.unConsensusRound + 1⟩
        csStep := .proposePhase
        csRoundStart := now
        csTimeout := timeout }

def Task.move (answers : Answers) (engine : ConsensusEngine) : Task → Move
  | .applyConsensusMessage (.proposal p) => if Accepts engine p then .prevote else .stay
  | .applyConsensusMessage (.ownProposal _) => .stay
  | .applyConsensusMessage (.prevote _) =>
      if superMajority engine.ceState.csValidatorSet (prevoteSenders answers.prevotes) then
        .lock (firstBlock (answers.prevotes.map PrevoteMsg.prBlockHash))
      else if superMajority engine.ceState.csValidatorSet (prevoteSenders
          (answers.prevotes.filter fun p => p.prBlockHash.isNone)) then
        .precommit
      else .stay
  | .applyConsensusMessage (.precommit _) =>
      if superMajority engine.ceState.csValidatorSet (precommitSenders answers.precommits) then
        match firstBlock (answers.precommits.map PrecommitMsg.pcBlockHash) with
        | some blockHash => .decide blockHash
        | none => .startNextRound answers.now engine.ceConfig.ccTimeoutPropose
      else .stay
  | .applyConsensusMessage (.commit c) =>
      if engine.ceState.csStep = .commitPhase ∧
          c.cmBlockHash = engine.ceState.csDecision.getD c.cmBlockHash then
        .finalize c.cmBlockHash
      else .stay
  | .applyConsensusMessage (.viewChange _) =>
      if superMajority engine.ceState.csValidatorSet (viewChangeSenders answers.viewChanges) then
        .enter (nextRound engine)
      else .stay
  | .applyConsensusMessage (.newView nv) => .enter ⟨nv.nvView⟩
  | .runConsensusRound =>
      if shouldPropose engine.ceState.csRound engine.ceState.csValidatorSet engine.ceValidator =
          some true then
        .propose none
      else .stay

namespace Machine

def move (m : Machine) : Input → Move
  | .resume answers =>
      match m.pending with
      | [] => .stay
      | task :: _ => task.move answers m.engine
  | .timeoutHandler now =>
      if m.pending = [] then .startNextRound now m.engine.ceConfig.ccTimeoutPropose else .stay
  | _ => .stay

end Machine

/-! ### The move of each handler -/

section Handlers

variable (answers : Answers) (engine : ConsensusEngine)

theorem ceState_handleProposal (p : ProposalMsg) :
    (handleProposal engine p).ceState =
      ((Task.applyConsensusMessage (.proposal p)).move answers engine).apply engine.ceState := by
  by_cases h : Accepts engine p
  · rw [Task.move, if_pos h, handleProposal_eq_sendPrevote h.1 h.2.1 h.2.2]
    rfl
  · have hself : handleProposal engine p = engine := if_neg h
    rw [Task.move, if_neg h, hself]
    rfl

theorem ceState_handlePrevote (p : PrevoteMsg) :
    (handlePrevote (fun _ _ _ => answers.prevotes) engine p).ceState =
      ((Task.applyConsensusMessage (.prevote p)).move answers engine).apply engine.ceState := by
  simp only [handlePrevote, Task.move]
  split
  · rfl
  · split
    · rfl
    · rfl

theorem ceState_handlePrecommit (p : PrecommitMsg) :
    (handlePrecommit (fun _ _ _ => answers.precommits) answers.now engine p).ceState =
      ((Task.applyConsensusMessage (.precommit p)).move answers engine).apply
        engine.ceState := by
  simp only [handlePrecommit, Task.move]
  split
  · cases firstBlock (answers.precommits.map PrecommitMsg.pcBlockHash) with
    | none => rfl
    | some blockHash => rfl
  · rfl

theorem ceState_handleCommit (c : CommitMsg) :
    (handleCommit engine c).ceState =
      ((Task.applyConsensusMessage (.commit c)).move answers engine).apply engine.ceState := by
  simp only [handleCommit, Task.move]
  split
  · rfl
  · rfl

theorem ceState_handleViewChange (vc : ViewChange) :
    (handleViewChange (fun _ _ => answers.viewChanges) engine vc).1.ceState =
      ((Task.applyConsensusMessage (.viewChange vc)).move answers engine).apply
        engine.ceState := by
  simp only [handleViewChange, Task.move]
  split
  · rfl
  · rfl

theorem ceState_runConsensusRound {engine' : ConsensusEngine} {tasks : List Task}
    (h : runConsensusRound engine = some (engine', tasks)) :
    engine'.ceState = (Task.runConsensusRound.move answers engine).apply engine.ceState := by
  rcases runConsensusRound_cases h with ⟨hpropose, hresult⟩ | ⟨hpropose, hresult⟩
  · cases hresult
    rw [Task.move, if_pos hpropose]
    rfl
  · cases hresult
    rw [Task.move, if_neg (by rw [hpropose]; decide)]
    rfl

theorem ceState_perform {task : Task} {engine' : ConsensusEngine} {tasks : List Task}
    (h : perform answers engine task = some (engine', tasks)) :
    engine'.ceState = (task.move answers engine).apply engine.ceState := by
  cases task with
  | runConsensusRound => exact ceState_runConsensusRound answers engine h
  | applyConsensusMessage msg =>
      cases msg with
      | proposal p =>
          obtain ⟨rfl, rfl⟩ := eq_of_perform_proposal h
          exact ceState_handleProposal answers engine p
      | ownProposal p => cases h
      | prevote p =>
          cases h
          exact ceState_handlePrevote answers engine p
      | precommit p =>
          cases h
          exact ceState_handlePrecommit answers engine p
      | commit c =>
          cases h
          exact ceState_handleCommit answers engine c
      | viewChange vc =>
          have hview := ceState_handleViewChange answers engine vc
          rwa [Option.some.inj h] at hview
      | newView nv =>
          cases h
          rfl

theorem move_eq_stay {task : Task} (h : perform answers engine task = none) :
    task.move answers engine = .stay := by
  rcases perform_eq_none answers engine h with ⟨p, rfl⟩ | ⟨hproposer, htask⟩
  · rfl
  · have hnot := not_propose_of_roundProposer_eq_none engine hproposer
    rcases htask with rfl | ⟨p, rfl⟩
    · rw [Task.move, if_neg (hnot _)]
    · rw [Task.move, if_neg fun haccepts => hnot _ haccepts.2.1]

end Handlers

namespace Machine

theorem move_resume {m : Machine} {task : Task} {rest : List Task}
    (hpending : m.pending = task :: rest) (answers : Answers) :
    m.move (.resume answers) = task.move answers m.engine := by
  simp only [move, hpending]

/-- What a step does to the consensus state. -/
theorem ceState_step (m : Machine) (i : Input) :
    (m.step i).engine.ceState = (m.move i).apply m.engine.ceState := by
  cases i with
  | resume answers =>
      cases hpending : m.pending with
      | nil =>
          simp only [step, resume, move, hpending]
          rfl
      | cons task rest =>
          rw [move_resume hpending]
          simp only [step, resume, hpending]
          cases hperform : perform answers m.engine task with
          | none =>
              rw [move_eq_stay answers m.engine hperform]
              rfl
          | some result => exact ceState_perform answers m.engine hperform
  | timeoutHandler now =>
      simp only [step, move]
      split
      · rfl
      · rfl
  | _ =>
      simp only [step, move]
      split
      · rfl
      · rfl

theorem csValidatorSet_step (m : Machine) (i : Input) :
    (m.step i).engine.ceState.csValidatorSet = m.engine.ceState.csValidatorSet := by
  rw [ceState_step]
  cases m.move i with
  | _ => rfl

end Machine

end Consensus

end CryptoCoin
