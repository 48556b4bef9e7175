import CryptoCoin.Consensus.Decisions

/-!
# The metrics of an engine

`ConsensusMetrics` counts completed rounds, view changes, timeouts, proposals and commits.
The counters are written beside the state, and two of their relations to it can fail.

* The round is the number of completed rounds and view changes. A new view moves to any
  round and counts nothing, so the relation is kept exactly by runs whose new views are for
  the current round (`rounds_accounted_iff`).
* An engine commits one block. Each precommit that is applied under a quorum for a block
  counts a commit again (`commits_accounted_iff`).
-/

namespace CryptoCoin

namespace Consensus

open Protocol (ValidatorId PrivateKey Timestamp)

/-! ### What a step counts -/

def Move.count (c : ConsensusMetrics) : Move → ConsensusMetrics
  | .propose _ => { c with cmBlocksProposed := c.cmBlocksProposed + 1 }
  | .decide _ => { c with cmBlocksCommitted := c.cmBlocksCommitted + 1 }
  | .startNextRound _ _ => { c with cmRoundsCompleted := c.cmRoundsCompleted + 1 }
  | _ => c

/-- A view change is counted as such; it makes the same move as a new view. -/
def Task.count (answers : Answers) (engine : ConsensusEngine) (c : ConsensusMetrics) :
    Task → ConsensusMetrics
  | .applyConsensusMessage (.viewChange _) =>
      if superMajority engine.ceState.csValidatorSet (viewChangeSenders answers.viewChanges) then
        { c with cmViewChanges := c.cmViewChanges + 1 }
      else c
  | _ => c

theorem ceMetrics_perform {answers : Answers} {engine : ConsensusEngine} {task : Task}
    {engine' : ConsensusEngine} {tasks : List Task}
    (h : perform answers engine task = some (engine', tasks)) :
    engine'.ceMetrics =
      (task.move answers engine).count (task.count answers engine engine.ceMetrics) := by
  cases task with
  | runConsensusRound =>
      rcases runConsensusRound_cases h with ⟨hpropose, hresult⟩ | ⟨hpropose, hresult⟩
      · cases hresult
        rw [Task.move, if_pos hpropose]
        rfl
      · cases hresult
        rw [Task.move, if_neg (by rw [hpropose]; decide)]
        rfl
  | applyConsensusMessage msg =>
      cases msg with
      | proposal p =>
          obtain ⟨rfl, rfl⟩ := eq_of_perform_proposal h
          by_cases haccepts : Accepts engine p
          · rw [Task.move, if_pos haccepts,
              handleProposal_eq_sendPrevote haccepts.1 haccepts.2.1 haccepts.2.2]
            rfl
          · have hself : handleProposal engine p = engine := if_neg haccepts
            rw [Task.move, if_neg haccepts, hself]
            rfl
      | ownProposal p => cases h
      | prevote p =>
          cases h
          simp only [handlePrevote, Task.move, Task.count]
          split
          · rfl
          · split
            · rfl
            · rfl
      | precommit p =>
          cases h
          simp only [handlePrecommit, Task.move, Task.count]
          split
          · cases firstBlock (answers.precommits.map PrecommitMsg.pcBlockHash) with
            | none => rfl
            | some blockHash => rfl
          · rfl
      | commit c =>
          cases h
          simp only [handleCommit, Task.move, Task.count]
          split
          · rfl
          · rfl
      | viewChange vc =>
          have hview : (handleViewChange (fun _ _ => answers.viewChanges) engine vc).1 = engine' :=
            congrArg Prod.fst (Option.some.inj h)
          subst hview
          simp only [handleViewChange, Task.move, Task.count]
          split
          · rfl
          · rfl
      | newView nv =>
          cases h
          rfl

theorem Task.enters_view_or (answers : Answers) (engine : ConsensusEngine) (task : Task) :
    (∃ vc, task = .applyConsensusMessage (.viewChange vc)) ∨
      (∃ nv, task = .applyConsensusMessage (.newView nv)) ∨
      (∀ round, task.move answers engine ≠ .enter round) ∧
        ∀ c, task.count answers engine c = c := by
  cases task with
  | runConsensusRound =>
      refine Or.inr (Or.inr ⟨?_, fun _ => rfl⟩)
      intro round
      rw [Task.move]
      split <;> simp
  | applyConsensusMessage msg =>
      cases msg with
      | viewChange vc => exact Or.inl ⟨vc, rfl⟩
      | newView nv => exact Or.inr (Or.inl ⟨nv, rfl⟩)
      | ownProposal p => exact Or.inr (Or.inr ⟨fun _ => Move.noConfusion, fun _ => rfl⟩)
      | proposal p =>
          refine Or.inr (Or.inr ⟨?_, fun _ => rfl⟩)
          intro round
          rw [Task.move]
          split <;> simp
      | prevote p =>
          refine Or.inr (Or.inr ⟨?_, fun _ => rfl⟩)
          intro round
          rw [Task.move]
          split
          · simp
          · split <;> simp
      | precommit p =>
          refine Or.inr (Or.inr ⟨?_, fun _ => rfl⟩)
          intro round
          rw [Task.move]
          split
          · split <;> simp
          · simp
      | commit c =>
          refine Or.inr (Or.inr ⟨?_, fun _ => rfl⟩)
          intro round
          rw [Task.move]
          split <;> simp

namespace Machine

/-- A timeout is counted beside the round that it completes. -/
def count (m : Machine) (c : ConsensusMetrics) : Input → ConsensusMetrics
  | .resume answers =>
      match m.pending with
      | [] => c
      | task :: _ => task.count answers m.engine c
  | .timeoutHandler _ => if m.pending = [] then { c with cmTimeouts := c.cmTimeouts + 1 } else c
  | _ => c

theorem ceMetrics_step (m : Machine) (i : Input) :
    (m.step i).engine.ceMetrics = (m.move i).count (m.count m.engine.ceMetrics i) := by
  cases i with
  | resume answers =>
      cases hpending : m.pending with
      | nil =>
          simp only [step, resume, move, count, hpending]
          rfl
      | cons task rest =>
          rw [move_resume hpending]
          simp only [step, resume, count, hpending]
          cases hperform : perform answers m.engine task with
          | none =>
              rw [move_eq_stay answers m.engine hperform]
              rcases perform_eq_none answers m.engine hperform with
                ⟨p, rfl⟩ | ⟨_, rfl | ⟨p, rfl⟩⟩
              · rfl
              · rfl
              · rfl
          | some result => exact ceMetrics_perform hperform
  | timeoutHandler now =>
      simp only [step, move, count]
      split
      · rfl
      · rfl
  | _ =>
      simp only [step, move, count]
      split
      · rfl
      · rfl

end Machine

/-! ### Rounds -/

/-- The round is the number of rounds completed and views changed. -/
def RoundsAccounted (s : ConsensusState) (c : ConsensusMetrics) : Prop :=
  s.csRound.unConsensusRound = c.cmRoundsCompleted + c.cmViewChanges

theorem RoundsAccounted.apply {s : ConsensusState} {c : ConsensusMetrics}
    (h : RoundsAccounted s c) {mv : Move} (hmv : ∀ round, mv ≠ .enter round) :
    RoundsAccounted (mv.apply s) (mv.count c) := by
  cases mv with
  | enter round => exact absurd rfl (hmv round)
  | startNextRound now timeout =>
      have hnext : s.csRound.unConsensusRound + 1 =
          c.cmRoundsCompleted + 1 + c.cmViewChanges := by
        rw [show s.csRound.unConsensusRound = _ from h, UInt64.add_assoc,
          UInt64.add_comm c.cmViewChanges, UInt64.add_assoc]
      exact hnext
  | _ => exact h

namespace Machine

def ViewIsCurrent (m : Machine) : Input → Prop
  | .resume _ =>
      match m.pending with
      | .applyConsensusMessage (.newView nv) :: _ =>
          nv.nvView = m.engine.ceState.csRound.unConsensusRound
      | _ => True
  | _ => True

/-- One step: a new view is the only one that can lose the count. -/
theorem roundsAccounted_step_iff {m : Machine}
    (h : RoundsAccounted m.engine.ceState m.engine.ceMetrics) (i : Input) :
    RoundsAccounted (m.step i).engine.ceState (m.step i).engine.ceMetrics ↔
      m.ViewIsCurrent i := by
  rw [ceState_step, ceMetrics_step]
  cases i with
  | resume answers =>
      cases hpending : m.pending with
      | nil =>
          simp only [move, count, ViewIsCurrent, hpending]
          exact iff_of_true h trivial
      | cons task rest =>
          rw [move_resume hpending]
          simp only [count, hpending]
          rcases task.enters_view_or answers m.engine with ⟨vc, rfl⟩ | ⟨nv, rfl⟩ | ⟨hmove, hcount⟩
          · simp only [ViewIsCurrent, hpending, iff_true, Task.move, Task.count]
            split
            · -- the view change counts the round that it enters
              have hnext : m.engine.ceState.csRound.unConsensusRound + 1 =
                  m.engine.ceMetrics.cmRoundsCompleted +
                    (m.engine.ceMetrics.cmViewChanges + 1) := by
                rw [show m.engine.ceState.csRound.unConsensusRound = _ from h, UInt64.add_assoc]
              exact hnext
            · exact h
          · simp only [ViewIsCurrent, hpending]
            constructor
            · intro hafter
              exact Eq.trans hafter (Eq.symm h)
            · intro hcurrent
              exact Eq.trans hcurrent h
          · rw [hcount]
            refine iff_of_true (h.apply hmove) ?_
            simp only [ViewIsCurrent, hpending]
            split
            · next nv _ heq =>
                obtain ⟨rfl, _⟩ := List.cons.inj heq
                exact absurd rfl (hmove ⟨nv.nvView⟩)
            · trivial
  | timeoutHandler now =>
      refine iff_of_true ?_ trivial
      simp only [move, count]
      split
      · exact RoundsAccounted.apply (c := { m.engine.ceMetrics with
          cmTimeouts := m.engine.ceMetrics.cmTimeouts + 1 }) h (by simp)
      · exact h
  | _ => exact iff_of_true h trivial

end Machine

/-- The round of an engine is throughout a run the number of rounds it has completed and
views it has changed, exactly when every new view that it applies is for its current
round. -/
theorem rounds_accounted_iff (now : Timestamp) (config : ConsensusConfig) (privKey : PrivateKey)
    (validator : ValidatorId) (vset : ValidatorSet) (inputs : List Input) :
    Runs.Always Machine.step
        (fun m => RoundsAccounted m.engine.ceState m.engine.ceMetrics)
        (.ofEngine (newConsensusEngine now config privKey validator vset)) inputs ↔
      ∀ x ∈ Runs.trace Machine.step
          (.ofEngine (newConsensusEngine now config privKey validator vset)) inputs,
        x.1.ViewIsCurrent x.2 := by
  apply Runs.always_iff
  · rfl
  · intro x _ h
    exact Machine.roundsAccounted_step_iff h x.2

/-! ### Commits -/

/-- One commit is counted with a decision, and none without. -/
def CommitsAccounted (s : ConsensusState) (c : ConsensusMetrics) : Prop :=
  c.cmBlocksCommitted = if s.csDecision.isSome then 1 else 0

def Machine.DecidesOnce (m : Machine) (i : Input) : Prop :=
  ∀ blockHash, m.move i = .decide blockHash → m.engine.ceState.csDecision = none

theorem Task.cmBlocksCommitted_count (answers : Answers) (engine : ConsensusEngine) (task : Task)
    (c : ConsensusMetrics) :
    (task.count answers engine c).cmBlocksCommitted = c.cmBlocksCommitted := by
  rcases task.enters_view_or answers engine with ⟨vc, rfl⟩ | ⟨nv, rfl⟩ | ⟨_, hcount⟩
  · rw [Task.count]
    split
    · rfl
    · rfl
  · rfl
  · rw [hcount]

theorem Machine.cmBlocksCommitted_count (m : Machine) (c : ConsensusMetrics) (i : Input) :
    (m.count c i).cmBlocksCommitted = c.cmBlocksCommitted := by
  cases i with
  | resume answers =>
      simp only [count]
      split
      · rfl
      · exact Task.cmBlocksCommitted_count answers m.engine _ c
  | timeoutHandler now =>
      simp only [count]
      split
      · rfl
      · rfl
  | _ => rfl

theorem Task.csStep_of_move_eq_finalize {answers : Answers} {engine : ConsensusEngine} {task : Task}
    {blockHash : BlockHash} (h : task.move answers engine = .finalize blockHash) :
    engine.ceState.csStep = .commitPhase := by
  cases task with
  | runConsensusRound =>
      rw [Task.move] at h
      split at h <;> cases h
  | applyConsensusMessage msg =>
      cases msg with
      | commit c =>
          rw [Task.move] at h
          split at h
          · next hcommit => exact hcommit.1
          · cases h
      | prevote p =>
          rw [Task.move] at h
          split at h
          · cases h
          · split at h <;> cases h
      | precommit p =>
          rw [Task.move] at h
          split at h
          · split at h <;> cases h
          · cases h
      | newView nv => cases h
      | ownProposal p => cases h
      | _ =>
          rw [Task.move] at h
          split at h <;> cases h

theorem Machine.csStep_of_move_eq_finalize {m : Machine} {i : Input} {blockHash : BlockHash}
    (h : m.move i = .finalize blockHash) : m.engine.ceState.csStep = .commitPhase := by
  cases i with
  | resume answers =>
      cases hpending : m.pending with
      | nil =>
          simp only [move, hpending] at h
          cases h
      | cons task rest =>
          rw [move_resume hpending] at h
          exact Task.csStep_of_move_eq_finalize h
  | timeoutHandler now =>
      simp only [move] at h
      split at h <;> cases h
  | _ => cases h

theorem Machine.commitsAccounted_step_iff {m : Machine}
    (hdecided : CommitDecided m.engine.ceState)
    (h : CommitsAccounted m.engine.ceState m.engine.ceMetrics) (i : Input) :
    CommitsAccounted (m.step i).engine.ceState (m.step i).engine.ceMetrics ↔
      m.DecidesOnce i := by
  have hcount := m.cmBlocksCommitted_count m.engine.ceMetrics i
  rw [ceState_step, ceMetrics_step, DecidesOnce]
  cases hmove : m.move i with
  | decide blockHash =>
      change (m.count m.engine.ceMetrics i).cmBlocksCommitted + 1 = 1 ↔ _
      rw [hcount, show m.engine.ceMetrics.cmBlocksCommitted = _ from h]
      cases m.engine.ceState.csDecision with
      | none => simp
      | some b => simp
  | finalize blockHash =>
      -- the decision that is written was there before
      have hsome := hdecided (csStep_of_move_eq_finalize hmove)
      refine iff_of_true ?_ (by simp)
      change (m.count m.engine.ceMetrics i).cmBlocksCommitted = 1
      rw [hcount, show m.engine.ceMetrics.cmBlocksCommitted = _ from h, if_pos hsome]
  | _ => exact iff_of_true (hcount.trans h) (by simp)

/-- The counter of commits is throughout a run one with a decision and zero without, exactly
when no step decides again. -/
theorem commits_accounted_iff (now : Timestamp) (config : ConsensusConfig)
    (privKey : PrivateKey) (validator : ValidatorId) (vset : ValidatorSet)
    (inputs : List Input) :
    Runs.Always Machine.step
        (fun m => CommitsAccounted m.engine.ceState m.engine.ceMetrics)
        (.ofEngine (newConsensusEngine now config privKey validator vset)) inputs ↔
      ∀ x ∈ Runs.trace Machine.step
          (.ofEngine (newConsensusEngine now config privKey validator vset)) inputs,
        x.1.DecidesOnce x.2 := by
  apply Runs.always_iff
  · rfl
  · intro x hx h
    obtain ⟨pre, _, _, hstate⟩ := Runs.mem_trace_iff.mp hx
    have hdecided : CommitDecided x.1.engine.ceState := by
      rw [hstate]
      exact CommitDecided.run (commitDecided_newConsensusEngine _ _ _ _ _) pre
    exact Machine.commitsAccounted_step_iff hdecided h x.2

end Consensus

end CryptoCoin
