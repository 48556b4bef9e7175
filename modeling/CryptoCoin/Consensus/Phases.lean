import CryptoCoin.Consensus.Decisions

/-!
# The phase of an engine

`csStep` is written by every handler and read by one: `handleCommit` finalizes a block in
the commit phase only. The module exports `transitionStep` as well, which writes any phase
at any time. So calls may come from outside the rules of the handlers.

* Commit messages change nothing throughout a run exactly when `transitionStep` enters the
  commit phase with a decision only (`commits_idle_iff`).
* In such runs the phase has no influence at all: without the calls of `transitionStep` the
  engine sends the same messages, takes the same locks and decisions and counts the same
  (`phases_unobservable`).
-/

namespace CryptoCoin

namespace Consensus

open Protocol (ByteString ValidatorId PrivateKey Timestamp)

def transitionStep (engine : ConsensusEngine) (newStep : ConsensusStep) : ConsensusEngine :=
  engine.modifyState fun s => { s with csStep := newStep }

/-! ### Engines up to their phase -/

section Forget

variable (engine : ConsensusEngine)

def ConsensusEngine.forget : ConsensusEngine := transitionStep engine .proposePhase

theorem signMessage_forget (data : ByteString) :
    signMessage engine.forget data = signMessage engine data := signMessage_congr rfl data

theorem prevoteMsg_forget (blockHash : Option BlockHash) :
    prevoteMsg engine.forget blockHash = prevoteMsg engine blockHash := by
  rw [prevoteMsg, signMessage_forget]
  rfl

theorem precommitMsg_forget (blockHash : Option BlockHash) :
    precommitMsg engine.forget blockHash = precommitMsg engine blockHash := by
  rw [precommitMsg, signMessage_forget]
  rfl

theorem ownProposal_forget : ownProposal engine.forget = ownProposal engine := by
  rw [ownProposal, signMessage_forget]
  rfl

theorem forget_handleProposal (p : ProposalMsg) :
    (handleProposal engine.forget p).forget = (handleProposal engine p).forget := by
  by_cases h : Accepts engine p
  · have hforget : Accepts engine.forget p := h
    rw [handleProposal_eq_sendPrevote h.1 h.2.1 h.2.2,
      handleProposal_eq_sendPrevote hforget.1 hforget.2.1 hforget.2.2, sendPrevote,
      prevoteMsg_forget]
    rfl
  · have hself : handleProposal engine p = engine := if_neg h
    have hforget : handleProposal engine.forget p = engine.forget := if_neg h
    rw [hself, hforget]
    rfl

theorem forget_handlePrevote (prevotes : List PrevoteMsg) (p : PrevoteMsg) :
    (handlePrevote (fun _ _ _ => prevotes) engine.forget p).forget =
      (handlePrevote (fun _ _ _ => prevotes) engine p).forget := by
  have hvset : engine.forget.ceState.csValidatorSet = engine.ceState.csValidatorSet := rfl
  simp only [handlePrevote, hvset]
  split
  · rw [sendPrecommit, sendPrecommit, precommitMsg_lockOn, precommitMsg_lockOn,
      precommitMsg_forget]
    rfl
  · split
    · rw [sendPrecommit, sendPrecommit, precommitMsg_forget]
      rfl
    · rfl

theorem forget_handlePrecommit (precommits : List PrecommitMsg) (now : Timestamp)
    (p : PrecommitMsg) :
    (handlePrecommit (fun _ _ _ => precommits) now engine.forget p).forget =
      (handlePrecommit (fun _ _ _ => precommits) now engine p).forget := by
  have hvset : engine.forget.ceState.csValidatorSet = engine.ceState.csValidatorSet := rfl
  simp only [handlePrecommit, hvset]
  split
  · split
    · rfl
    · rfl
  · rfl

variable {engine}

/-- The one handler that reads the phase has nothing to write when the commit phase comes
with a decision. -/
theorem handleCommit_eq_self (h : CommitDecided engine.ceState) (c : CommitMsg) :
    handleCommit engine c = engine := by
  have hstate := ceState_handleCommit_eq_self h c
  simp only [handleCommit] at hstate ⊢
  split
  · next hcommit =>
      rw [if_pos hcommit] at hstate
      exact congrArg (fun s => ({ engine with ceState := s } : ConsensusEngine)) hstate
  · rfl

theorem commitDecided_forget (engine : ConsensusEngine) : CommitDecided engine.forget.ceState :=
  nofun

theorem forget_handleCommit (h : CommitDecided engine.ceState) (c : CommitMsg) :
    (handleCommit engine.forget c).forget = (handleCommit engine c).forget := by
  rw [handleCommit_eq_self h, handleCommit_eq_self (commitDecided_forget engine)]
  rfl

def forgetResult (result : ConsensusEngine × List Task) : ConsensusEngine × List Task :=
  (result.1.forget, result.2)

theorem forget_runConsensusRound (engine : ConsensusEngine) :
    (runConsensusRound engine.forget).map forgetResult =
      (runConsensusRound engine).map forgetResult := by
  have hpropose : shouldPropose engine.forget.ceState.csRound
      engine.forget.ceState.csValidatorSet engine.forget.ceValidator =
      shouldPropose engine.ceState.csRound engine.ceState.csValidatorSet engine.ceValidator := rfl
  simp only [runConsensusRound, hpropose]
  split
  · rfl
  · rw [proposeBlock, proposeBlock, ownProposal_forget]
    rfl
  · rfl

/-- A task does the same in every phase. -/
theorem forget_perform (answers : Answers) (h : CommitDecided engine.ceState) (task : Task) :
    (perform answers engine.forget task).map forgetResult =
      (perform answers engine task).map forgetResult := by
  cases task with
  | runConsensusRound => exact forget_runConsensusRound engine
  | applyConsensusMessage msg =>
      simp only [perform]
      cases msg with
      | proposal p =>
          have hround : engine.forget.ceState.csRound = engine.ceState.csRound := rfl
          have hvset : engine.forget.ceState.csValidatorSet = engine.ceState.csValidatorSet := rfl
          simp only [applyConsensusMessage, hround, hvset]
          split
          · rfl
          · simp only [Option.map_some, forgetResult, forget_handleProposal]
      | ownProposal p => rfl
      | prevote p =>
          simp only [applyConsensusMessage, Option.map_some, forgetResult, forget_handlePrevote]
      | precommit p =>
          simp only [applyConsensusMessage, Option.map_some, forgetResult, forget_handlePrecommit]
      | commit c =>
          simp only [applyConsensusMessage, Option.map_some, forgetResult, forget_handleCommit h]
      | viewChange vc =>
          have hvset : engine.forget.ceState.csValidatorSet = engine.ceState.csValidatorSet := rfl
          simp only [applyConsensusMessage, handleViewChange, hvset]
          split
          · rfl
          · rfl
      | newView nv => rfl

end Forget

/-! ### Calls -/

/-- A call on the engine, with those of `transitionStep`. -/
inductive Call where
  | input (i : Input)
  | transitionStep (newStep : ConsensusStep)

def Call.toInput : Call → Option Input
  | .input i => some i
  | .transitionStep _ => none

namespace Machine

def stepCall (m : Machine) : Call → Machine
  | .input i => m.step i
  | .transitionStep newStep =>
      if m.pending = [] then { m with engine := Consensus.transitionStep m.engine newStep } else m

def forget (m : Machine) : Machine := { m with engine := m.engine.forget }

theorem forget_resume {m : Machine} (h : CommitDecided m.engine.ceState) (answers : Answers) :
    (m.forget.resume answers).forget = (m.resume answers).forget := by
  have hpending : m.forget.pending = m.pending := rfl
  simp only [resume, hpending]
  split
  · rfl
  · next task rest _ =>
      have hperform := forget_perform answers h task
      change (perform answers m.forget.engine task).map forgetResult = _ at hperform
      revert hperform
      cases perform answers m.forget.engine task with
      | none =>
          cases perform answers m.engine task with
          | none => exact fun _ => rfl
          | some result => simp
      | some result =>
          cases perform answers m.engine task with
          | none => simp
          | some result' =>
              intro hperform
              obtain ⟨hengine, htasks⟩ := Prod.mk.inj (Option.some.inj hperform)
              simp only [forget, hengine, htasks]

theorem forget_step {m : Machine} (h : CommitDecided m.engine.ceState) (i : Input) :
    (m.forget.step i).forget = (m.step i).forget := by
  cases i with
  | resume answers => exact forget_resume h answers
  | _ =>
      have hpending : m.forget.pending = m.pending := rfl
      have hdecision : m.forget.engine.ceState.csDecision = m.engine.ceState.csDecision := rfl
      simp only [step, hpending, hdecision]
      split
      · rfl
      · rfl

/-! ### Commit messages -/

/-- `transitionStep` enters the commit phase only with a decision. -/
def Permits (m : Machine) : Call → Prop
  | .transitionStep .commitPhase => m.pending = [] → m.engine.ceState.csDecision.isSome = true
  | _ => True

theorem commitDecided_stepCall_iff {m : Machine} (h : CommitDecided m.engine.ceState)
    (call : Call) : CommitDecided (m.stepCall call).engine.ceState ↔ m.Permits call := by
  cases call with
  | input i =>
      refine iff_of_true ?_ trivial
      rw [stepCall, ceState_step]
      exact h.apply _
  | transitionStep newStep =>
      by_cases hidle : m.pending = []
      · rw [stepCall, if_pos hidle]
        cases newStep with
        | commitPhase => exact ⟨fun hdecided _ => hdecided rfl, fun hpermits _ => hpermits hidle⟩
        | _ => exact iff_of_true nofun trivial
      · rw [stepCall, if_neg hidle]
        refine iff_of_true h ?_
        cases newStep with
        | commitPhase => exact fun hpending => absurd hpending hidle
        | _ => trivial

end Machine

theorem handleCommit_idle_iff {engine : ConsensusEngine} :
    (∀ c, (handleCommit engine c).ceState = engine.ceState) ↔ CommitDecided engine.ceState := by
  constructor
  · intro hidle hstep
    by_contra hnone
    have hundecided : engine.ceState.csDecision = none := by simpa using hnone
    -- an undecided engine takes the block of any commit message
    have hcommit := congrArg ConsensusState.csDecision (hidle ⟨⟨[]⟩, ⟨0⟩, ⟨⟨[]⟩⟩, ⟨[]⟩⟩)
    simp only [handleCommit, hstep, hundecided, Option.getD_none, and_self, if_true] at hcommit
    cases hcommit
  · intro h c
    exact ceState_handleCommit_eq_self h c

/-- Throughout a run of a new engine commit messages change nothing, exactly when
`transitionStep` never enters the commit phase without a decision. -/
theorem commits_idle_iff (now : Timestamp) (config : ConsensusConfig) (privKey : PrivateKey)
    (validator : ValidatorId) (vset : ValidatorSet) (calls : List Call) :
    Runs.Always Machine.stepCall
        (fun m => ∀ c, (handleCommit m.engine c).ceState = m.engine.ceState)
        (.ofEngine (newConsensusEngine now config privKey validator vset)) calls ↔
      ∀ x ∈ Runs.trace Machine.stepCall
          (.ofEngine (newConsensusEngine now config privKey validator vset)) calls,
        x.1.Permits x.2 := by
  apply Runs.always_iff
  · exact handleCommit_idle_iff.mpr
      (commitDecided_newConsensusEngine now config privKey validator vset)
  · intro x _ h
    rw [handleCommit_idle_iff] at h ⊢
    exact Machine.commitDecided_stepCall_iff h x.2

/-! ### Runs with and without `transitionStep` -/

theorem forget_run_eq {m m' : Machine} {calls : List Call}
    (hm : CommitDecided m.engine.ceState) (hm' : CommitDecided m'.engine.ceState)
    (hsame : m.forget = m'.forget)
    (hpermits : ∀ x ∈ Runs.trace Machine.stepCall m calls, x.1.Permits x.2) :
    (Runs.run Machine.stepCall m calls).forget =
      (Runs.run Machine.step m' (calls.filterMap Call.toInput)).forget := by
  induction calls generalizing m m' with
  | nil => exact hsame
  | cons call calls ih =>
      rw [Runs.trace, List.forall_mem_cons] at hpermits
      obtain ⟨hfirst, hrest⟩ := hpermits
      have hnext := (Machine.commitDecided_stepCall_iff hm call).mpr hfirst
      rw [Runs.run_cons]
      cases call with
      | input i =>
          change _ = (Runs.run Machine.step m' (i :: calls.filterMap Call.toInput)).forget
          rw [Runs.run_cons]
          refine ih hnext ?_ ?_ hrest
          · rw [Machine.ceState_step]
            exact hm'.apply _
          · calc (m.step i).forget = (m.forget.step i).forget := (Machine.forget_step hm i).symm
              _ = (m'.forget.step i).forget := by rw [hsame]
              _ = (m'.step i).forget := Machine.forget_step hm' i
      | transitionStep newStep =>
          change _ = (Runs.run Machine.step m' (calls.filterMap Call.toInput)).forget
          refine ih hnext hm' ?_ hrest
          rw [← hsame, Machine.stepCall]
          split
          · rfl
          · rfl

/-- As long as `transitionStep` enters the commit phase with a decision only, a run of a new
engine is the same without the calls of `transitionStep`, up to the phase. -/
theorem phases_unobservable (now : Timestamp) (config : ConsensusConfig) (privKey : PrivateKey)
    (validator : ValidatorId) (vset : ValidatorSet) {calls : List Call}
    (hpermits : ∀ x ∈ Runs.trace Machine.stepCall
      (.ofEngine (newConsensusEngine now config privKey validator vset)) calls,
      x.1.Permits x.2) :
    (Runs.run Machine.stepCall
        (.ofEngine (newConsensusEngine now config privKey validator vset)) calls).forget =
      (Runs.run Machine.step
        (.ofEngine (newConsensusEngine now config privKey validator vset))
        (calls.filterMap Call.toInput)).forget :=
  forget_run_eq (commitDecided_newConsensusEngine now config privKey validator vset)
    (commitDecided_newConsensusEngine now config privKey validator vset) rfl hpermits

namespace FourValidators

/-- The second validator prevotes a proposal of the first and times out, with calls of
`transitionStep` in between. -/
def stirredRound : List Call :=
  [.transitionStep .precommitPhase,
    .input (.applyConsensusMessage (.proposal ⟨block 1, ⟨0⟩, none, validator 0, ⟨[]⟩⟩)),
    .transitionStep .commitPhase, .input (.resume silence), .transitionStep .proposePhase,
    .input .runConsensusRound, .input (.resume silence), .input (.resume silence),
    .input (.timeoutHandler ⟨0⟩)]

end FourValidators

open FourValidators in
theorem phases_unobservable_stirredRound :
    (∀ x ∈ Runs.trace Machine.stepCall (.ofEngine newEngine) stirredRound, x.1.Permits x.2) ∧
      (Runs.run Machine.stepCall (.ofEngine newEngine) stirredRound).broadcasts =
        [.prevote (prevoteMsg newEngine (some (block 1)))] ∧
      (Runs.run Machine.stepCall (.ofEngine newEngine) stirredRound).forget =
        (Runs.run Machine.step (.ofEngine newEngine)
          (stirredRound.filterMap Call.toInput)).forget := by
  have hpermits : ∀ x ∈ Runs.trace Machine.stepCall (.ofEngine newEngine) stirredRound,
      x.1.Permits x.2 := by
    intro x hx
    simp only [stirredRound, Runs.trace, List.mem_cons, List.not_mem_nil, or_false] at hx
    rcases hx with rfl | rfl | rfl | rfl | rfl | rfl | rfl | rfl | rfl
    · trivial
    · trivial
    · -- the proposal is still to be handled, so the call has no effect
      exact fun hidle => absurd hidle (List.cons_ne_nil _ _)
    · trivial
    · trivial
    · trivial
    · trivial
    · trivial
    · trivial
  exact ⟨hpermits, by decide +kernel,
    phases_unobservable ⟨0⟩ ⟨1000⟩ ⟨List.replicate 32 9⟩ (validator 1) vset hpermits⟩

end Consensus

end CryptoCoin
