import CryptoCoin.Consensus.Engine
import CryptoCoin.Library.Runs

/-!
# Runs of one engine

The calls of `CryptoCoin.Consensus.Engine` nest: a view change runs a round, a
round drains the message queue, and every drained message is applied, which may be
a view change again. A `Machine` keeps what is left of the current call as a list of
tasks and performs one task a step. A new call is accepted when the last one has
returned.

The stubs `collectVotes` and `collectViewChanges` and the clock answer anew at every
step (`Answers`). Two tasks end in an exception: one that asks for a proposer when no
validator is active, and the engine's own proposal, whose block is undefined. The
exception leaves the current call, and nothing of it is pending any more.

`observe` keeps of a machine its round, its decision and all messages it has
broadcast. `observation_step` says what a step does to them: nothing or one of the
three effects of `Effect`, which `Machine.effect` reads off the task and the answers.
Results about runs go through this lemma and do not unfold the handlers.
-/

namespace CryptoCoin

namespace Consensus

open Protocol (ValidatorId PrivateKey Timestamp)

/-! ### View changes, rounds and the message loop -/

/-- A part of a call that is still to be performed. -/
inductive Task where
  | applyConsensusMessage (msg : ConsensusMessage)
  | runConsensusRound
  deriving DecidableEq

/-- What the surroundings of an engine answer during one step. -/
structure Answers where
  now : Timestamp
  prevotes : List PrevoteMsg
  precommits : List PrecommitMsg
  viewChanges : List ViewChange

def viewChangeSenders (viewChanges : List ViewChange) : Finset ValidatorId :=
  (viewChanges.map ViewChange.vcSender).toFinset

/-- The handlers return the engine and the calls they end in. -/
def handleViewChange (collectViewChanges : ConsensusEngine → UInt64 → List ViewChange)
    (engine : ConsensusEngine) (viewChange : ViewChange) : ConsensusEngine × List Task :=
  let state := engine.ceState
  let vset := state.csValidatorSet
  let currentRound := state.csRound
  let viewChanges := collectViewChanges engine viewChange.vcNewView
  if superMajority vset (viewChangeSenders viewChanges) then
    let newRound : ConsensusRound := ⟨currentRound.unConsensusRound + 1⟩
    let engine := engine.modifyState fun s =>
      { s with csRound := newRound, csStep := .proposePhase }
    let engine := engine.modifyMetrics fun m => { m with cmViewChanges := m.cmViewChanges + 1 }
    (engine, [.runConsensusRound])
  else (engine, [])

def handleNewView (engine : ConsensusEngine) (newView : NewView) : ConsensusEngine :=
  let newRound : ConsensusRound := ⟨newView.nvView⟩
  engine.modifyState fun s => { s with csRound := newRound, csStep := .proposePhase }

/-- The result is `none` when the handler of a proposal asks for a proposer and
there is none, and when the message is the engine's own proposal: the match on the
message evaluates the undefined block. -/
def applyConsensusMessage (answers : Answers) (engine : ConsensusEngine) :
    ConsensusMessage → Option (ConsensusEngine × List Task)
  | .proposal p =>
      if p.pmRound = engine.ceState.csRound ∧ isRoundProposer engine.ceState.csRound
          engine.ceState.csValidatorSet p.pmProposer = none then none
      else some (handleProposal engine p, [])
  | .ownProposal _ => none
  | .prevote p => some (handlePrevote (fun _ _ _ => answers.prevotes) engine p, [])
  | .precommit p =>
      some (handlePrecommit (fun _ _ _ => answers.precommits) answers.now engine p, [])
  | .commit c => some (handleCommit engine c, [])
  | .viewChange vc => some (handleViewChange (fun _ _ => answers.viewChanges) engine vc)
  | .newView nv => some (handleNewView engine nv, [])

/-- The queue is emptied at once and its messages are applied from the newest on. -/
def processMessages (engine : ConsensusEngine) : ConsensusEngine × List Task :=
  ({ engine with ceMsgQueue := [] }, engine.ceMsgQueue.map .applyConsensusMessage)

def runConsensusRound (engine : ConsensusEngine) : Option (ConsensusEngine × List Task) :=
  let state := engine.ceState
  match shouldPropose state.csRound state.csValidatorSet engine.ceValidator with
  | none => none
  | some true => some (processMessages (proposeBlock engine))
  | some false => some (processMessages engine)

def perform (answers : Answers) (engine : ConsensusEngine) :
    Task → Option (ConsensusEngine × List Task)
  | .applyConsensusMessage msg => applyConsensusMessage answers engine msg
  | .runConsensusRound => runConsensusRound engine

theorem runConsensusRound_cases {engine engine' : ConsensusEngine}
    {tasks : List Task} (h : runConsensusRound engine = some (engine', tasks)) :
    (shouldPropose engine.ceState.csRound engine.ceState.csValidatorSet engine.ceValidator =
        some true ∧ processMessages (proposeBlock engine) = (engine', tasks)) ∨
      (shouldPropose engine.ceState.csRound engine.ceState.csValidatorSet engine.ceValidator =
        some false ∧ processMessages engine = (engine', tasks)) := by
  simp only [runConsensusRound] at h
  split at h
  · cases h
  · next hpropose => exact Or.inl ⟨hpropose, Option.some.inj h⟩
  · next hpropose => exact Or.inr ⟨hpropose, Option.some.inj h⟩

theorem eq_of_perform_proposal {answers : Answers} {engine engine' : ConsensusEngine}
    {p : ProposalMsg} {tasks : List Task}
    (h : perform answers engine (.applyConsensusMessage (.proposal p)) = some (engine', tasks)) :
    engine' = handleProposal engine p ∧ tasks = [] := by
  simp only [perform, applyConsensusMessage] at h
  split at h
  · cases h
  · cases h
    exact ⟨rfl, rfl⟩

/-! ### The machine -/

/-- A call on the engine, or the next step of the current one. -/
inductive Input where
  | applyConsensusMessage (msg : ConsensusMessage)
  | timeoutHandler (now : Timestamp)
  | startConsensus
  | runConsensusRound
  | resume (answers : Answers)

/-- `drained` records the messages that `processMessages` has taken from the
queue. No function of the source reads it. -/
structure Machine where
  engine : ConsensusEngine
  pending : List Task
  drained : List ConsensusMessage
  deriving DecidableEq

namespace Machine

def ofEngine (engine : ConsensusEngine) : Machine := ⟨engine, [], []⟩

/-- All messages broadcast so far: those in the queue and those taken from it. -/
def broadcasts (m : Machine) : List ConsensusMessage := m.engine.ceMsgQueue ++ m.drained

def taskMessages (tasks : List Task) : List ConsensusMessage :=
  tasks.filterMap fun
    | .applyConsensusMessage msg => some msg
    | .runConsensusRound => none

/-- The first pending task is performed; the calls it ends in come before the rest. -/
def resume (m : Machine) (answers : Answers) : Machine :=
  match m.pending with
  | [] => m
  | task :: rest =>
      match perform answers m.engine task with
      | none => { m with pending := [] }
      | some (engine, tasks) => ⟨engine, tasks ++ rest, taskMessages tasks ++ m.drained⟩

/-- A call while another one runs is not accepted. -/
def step (m : Machine) : Input → Machine
  | .applyConsensusMessage msg =>
      if m.pending = [] then { m with pending := [.applyConsensusMessage msg] } else m
  | .timeoutHandler now =>
      if m.pending = [] then { m with engine := Consensus.timeoutHandler now m.engine } else m
  | .startConsensus =>
      if m.pending = [] ∧ m.engine.ceState.csDecision = none then
        { m with pending := [.runConsensusRound] }
      else m
  | .runConsensusRound =>
      if m.pending = [] then { m with pending := [.runConsensusRound] } else m
  | .resume answers => m.resume answers

end Machine

/-! ### Effects -/

/-- What a step does to the round, the decision and the broadcast messages. -/
inductive Effect where
  | none
  | broadcast (msg : ConsensusMessage)
  | decide (blockHash : BlockHash)
  | enter (round : ConsensusRound)

/-- The part of a machine that its effects change. -/
@[ext] structure Observation where
  round : ConsensusRound
  decision : Option BlockHash
  broadcasts : List ConsensusMessage

def Effect.apply (o : Observation) : Effect → Observation
  | .none => o
  | .broadcast msg => { o with broadcasts := msg :: o.broadcasts }
  | .decide blockHash => { o with decision := some blockHash }
  | .enter round => { o with round := round }

def nextRound (engine : ConsensusEngine) : ConsensusRound :=
  ⟨engine.ceState.csRound.unConsensusRound + 1⟩

/-- The proposal is for the current round, from its proposer, and allowed by the
lock. -/
def Accepts (engine : ConsensusEngine) (p : ProposalMsg) : Prop :=
  p.pmRound = engine.ceState.csRound ∧
    isRoundProposer engine.ceState.csRound engine.ceState.csValidatorSet p.pmProposer =
      some true ∧
    shouldVote engine.ceState p = true

instance (engine : ConsensusEngine) (p : ProposalMsg) : Decidable (Accepts engine p) :=
  inferInstanceAs (Decidable (_ ∧ _ ∧ _))

/-- The value of the precommit that the prevotes call for: that of the first prevote
when a super-majority has voted, and otherwise nil when a super-majority has
voted nil. -/
def polka (vset : ValidatorSet) (prevotes : List PrevoteMsg) : Option (Option BlockHash) :=
  if superMajority vset (prevoteSenders prevotes) then
    some (firstBlock (prevotes.map PrevoteMsg.prBlockHash))
  else if superMajority vset (prevoteSenders (prevotes.filter fun p => p.prBlockHash.isNone)) then
    some none
  else none

def Task.effect (answers : Answers) (engine : ConsensusEngine) : Task → Effect
  | .applyConsensusMessage (.proposal p) =>
      if Accepts engine p then .broadcast (.prevote (prevoteMsg engine (some p.pmBlockHash)))
      else .none
  | .applyConsensusMessage (.ownProposal _) => .none
  | .applyConsensusMessage (.prevote _) =>
      match polka engine.ceState.csValidatorSet answers.prevotes with
      | some value => .broadcast (.precommit (precommitMsg engine value))
      | none => .none
  | .applyConsensusMessage (.precommit _) =>
      if superMajority engine.ceState.csValidatorSet (precommitSenders answers.precommits) then
        match firstBlock (answers.precommits.map PrecommitMsg.pcBlockHash) with
        | some blockHash => .decide blockHash
        | none => .enter (nextRound engine)
      else .none
  | .applyConsensusMessage (.commit c) =>
      if engine.ceState.csStep = .commitPhase ∧
          c.cmBlockHash = engine.ceState.csDecision.getD c.cmBlockHash then
        .decide c.cmBlockHash
      else .none
  | .applyConsensusMessage (.viewChange _) =>
      if superMajority engine.ceState.csValidatorSet (viewChangeSenders answers.viewChanges) then
        .enter (nextRound engine)
      else .none
  | .applyConsensusMessage (.newView nv) => .enter ⟨nv.nvView⟩
  | .runConsensusRound =>
      if shouldPropose engine.ceState.csRound engine.ceState.csValidatorSet engine.ceValidator =
          some true then
        .broadcast (.ownProposal (ownProposal engine))
      else .none

namespace Machine

def effect (m : Machine) : Input → Effect
  | .resume answers =>
      match m.pending with
      | [] => .none
      | task :: _ => task.effect answers m.engine
  | .timeoutHandler _ => if m.pending = [] then .enter (nextRound m.engine) else .none
  | _ => .none

end Machine

def observe (engine : ConsensusEngine) (drained : List ConsensusMessage) : Observation :=
  { round := engine.ceState.csRound
    decision := engine.ceState.csDecision
    broadcasts := engine.ceMsgQueue ++ drained }

/-! ### The effect of each handler -/

section Handlers

variable (answers : Answers) (engine : ConsensusEngine) (drained : List ConsensusMessage)

attribute [local simp] Task.effect

theorem observe_handleProposal (p : ProposalMsg) :
    observe (handleProposal engine p) drained =
      ((Task.applyConsensusMessage (.proposal p)).effect answers engine).apply
        (observe engine drained) := by
  by_cases h : Accepts engine p
  · rw [Task.effect, if_pos h, handleProposal_eq_sendPrevote h.1 h.2.1 h.2.2]
    rfl
  · have hself : handleProposal engine p = engine := if_neg h
    rw [Task.effect, if_neg h, hself]
    rfl

theorem precommitMsg_lockOn (value blockHash : Option BlockHash) (round : ConsensusRound) :
    precommitMsg (engine.modifyState (lockOn value round)) blockHash =
      precommitMsg engine blockHash := by
  have hsign : ∀ data, signMessage (engine.modifyState (lockOn value round)) data =
      signMessage engine data := signMessage_congr rfl
  rw [precommitMsg, hsign]
  rfl

theorem observe_handlePrevote (p : PrevoteMsg) :
    observe (handlePrevote (fun _ _ _ => answers.prevotes) engine p) drained =
      ((Task.applyConsensusMessage (.prevote p)).effect answers engine).apply
        (observe engine drained) := by
  simp only [handlePrevote, Task.effect, polka]
  split
  · rw [sendPrecommit, precommitMsg_lockOn]
    rfl
  · split
    · rfl
    · rfl

theorem observe_handlePrecommit (p : PrecommitMsg) :
    observe (handlePrecommit (fun _ _ _ => answers.precommits) answers.now engine p) drained =
      ((Task.applyConsensusMessage (.precommit p)).effect answers engine).apply
        (observe engine drained) := by
  simp only [handlePrecommit, Task.effect]
  split
  · cases firstBlock (answers.precommits.map PrecommitMsg.pcBlockHash) with
    | none => rfl
    | some blockHash => rfl
  · rfl

theorem observe_handleCommit (c : CommitMsg) :
    observe (handleCommit engine c) drained =
      ((Task.applyConsensusMessage (.commit c)).effect answers engine).apply
        (observe engine drained) := by
  simp only [handleCommit, Task.effect]
  split
  · rfl
  · rfl

theorem observe_handleViewChange (vc : ViewChange) :
    observe (handleViewChange (fun _ _ => answers.viewChanges) engine vc).1
        (Machine.taskMessages
          (handleViewChange (fun _ _ => answers.viewChanges) engine vc).2 ++ drained) =
      ((Task.applyConsensusMessage (.viewChange vc)).effect answers engine).apply
        (observe engine drained) := by
  simp only [handleViewChange, Task.effect]
  split
  · rfl
  · rfl

theorem taskMessages_map (msgs : List ConsensusMessage) :
    Machine.taskMessages (msgs.map .applyConsensusMessage) = msgs := by
  rw [Machine.taskMessages, List.filterMap_map]
  exact List.filterMap_some

/-- The message loop moves messages and broadcasts none. -/
theorem observe_processMessages :
    observe (processMessages engine).1
        (Machine.taskMessages (processMessages engine).2 ++ drained) =
      observe engine drained := by
  simp only [processMessages, taskMessages_map, observe, List.nil_append]

theorem observe_runConsensusRound {engine' : ConsensusEngine} {tasks : List Task}
    (h : runConsensusRound engine = some (engine', tasks)) :
    observe engine' (Machine.taskMessages tasks ++ drained) =
      (Task.runConsensusRound.effect answers engine).apply (observe engine drained) := by
  rcases runConsensusRound_cases h with ⟨hpropose, hresult⟩ | ⟨hpropose, hresult⟩
  · have hprocess := observe_processMessages (proposeBlock engine) drained
    rw [hresult] at hprocess
    rw [hprocess, Task.effect, if_pos hpropose]
    rfl
  · have hprocess := observe_processMessages engine drained
    rw [hresult] at hprocess
    rw [hprocess, Task.effect, if_neg (by rw [hpropose]; decide)]
    rfl

theorem observe_perform {task : Task} {engine' : ConsensusEngine} {tasks : List Task}
    (h : perform answers engine task = some (engine', tasks)) :
    observe engine' (Machine.taskMessages tasks ++ drained) =
      (task.effect answers engine).apply (observe engine drained) := by
  cases task with
  | runConsensusRound => exact observe_runConsensusRound answers engine drained h
  | applyConsensusMessage msg =>
      cases msg with
      | proposal p =>
          obtain ⟨rfl, rfl⟩ := eq_of_perform_proposal h
          exact observe_handleProposal answers engine drained p
      | ownProposal p => cases h
      | prevote p =>
          cases h
          exact observe_handlePrevote answers engine drained p
      | precommit p =>
          cases h
          exact observe_handlePrecommit answers engine drained p
      | commit c =>
          cases h
          exact observe_handleCommit answers engine drained c
      | viewChange vc =>
          have hview := observe_handleViewChange answers engine drained vc
          rwa [Option.some.inj h] at hview
      | newView nv =>
          cases h
          rfl

/-- The engine's own proposal fails, and a round or a proposal for want of a proposer. -/
theorem perform_eq_none {task : Task} (h : perform answers engine task = none) :
    (∃ p, task = .applyConsensusMessage (.ownProposal p)) ∨
      roundProposer engine.ceState.csRound engine.ceState.csValidatorSet = none ∧
        (task = .runConsensusRound ∨ ∃ p, task = .applyConsensusMessage (.proposal p)) := by
  cases task with
  | runConsensusRound =>
      simp only [perform, runConsensusRound] at h
      split at h
      · next hpropose => exact Or.inr ⟨Option.map_eq_none_iff.mp hpropose, Or.inl rfl⟩
      · cases h
      · cases h
  | applyConsensusMessage msg =>
      cases msg with
      | proposal p =>
          simp only [perform, applyConsensusMessage] at h
          split at h
          · next hfail => exact Or.inr ⟨Option.map_eq_none_iff.mp hfail.2, Or.inr ⟨p, rfl⟩⟩
          · cases h
      | ownProposal p => exact Or.inl ⟨p, rfl⟩
      | _ => cases h

theorem not_propose_of_roundProposer_eq_none
    (h : roundProposer engine.ceState.csRound engine.ceState.csValidatorSet = none)
    (validator : ValidatorId) :
    shouldPropose engine.ceState.csRound engine.ceState.csValidatorSet validator ≠
      some true := by
  rw [shouldPropose, h]
  exact Option.some_ne_none true |>.symm

theorem effect_eq_none {task : Task} (h : perform answers engine task = none) :
    task.effect answers engine = .none := by
  rcases perform_eq_none answers engine h with ⟨p, rfl⟩ | ⟨hproposer, htask⟩
  · rfl
  · have hnot := not_propose_of_roundProposer_eq_none engine hproposer
    rcases htask with rfl | ⟨p, rfl⟩
    · rw [Task.effect, if_neg (hnot _)]
    · rw [Task.effect, if_neg fun haccepts => hnot _ haccepts.2.1]

/-- The three ways to broadcast a message. -/
theorem Task.effect_eq_broadcast {task : Task} {msg : ConsensusMessage}
    (h : task.effect answers engine = .broadcast msg) :
    (∃ p, task = .applyConsensusMessage (.proposal p) ∧ Accepts engine p ∧
        msg = .prevote (prevoteMsg engine (some p.pmBlockHash))) ∨
      (∃ p value, task = .applyConsensusMessage (.prevote p) ∧
        polka engine.ceState.csValidatorSet answers.prevotes = some value ∧
        msg = .precommit (precommitMsg engine value)) ∨
      (task = .runConsensusRound ∧ msg = .ownProposal (ownProposal engine)) := by
  cases task with
  | runConsensusRound =>
      simp only [Task.effect] at h
      split at h
      · cases h
        exact Or.inr (Or.inr ⟨rfl, rfl⟩)
      · cases h
  | applyConsensusMessage m =>
      cases m with
      | proposal p =>
          simp only [Task.effect] at h
          split at h
          · next haccepts =>
              cases h
              exact Or.inl ⟨p, rfl, haccepts, rfl⟩
          · cases h
      | ownProposal p => cases h
      | prevote p =>
          simp only [Task.effect] at h
          split at h
          · next value hpolka =>
              cases h
              exact Or.inr (Or.inl ⟨p, value, rfl, hpolka, rfl⟩)
          · cases h
      | precommit p =>
          simp only [Task.effect] at h
          split at h
          · split at h <;> cases h
          · cases h
      | commit c =>
          simp only [Task.effect] at h
          split at h <;> cases h
      | viewChange vc =>
          simp only [Task.effect] at h
          split at h <;> cases h
      | newView nv => cases h

end Handlers

namespace Machine

theorem effect_resume {m : Machine} {task : Task} {rest : List Task}
    (hpending : m.pending = task :: rest) (answers : Answers) :
    m.effect (.resume answers) = task.effect answers m.engine := by
  simp only [effect, hpending]

theorem effect_eq_broadcast {m : Machine} {i : Input} {msg : ConsensusMessage}
    (h : m.effect i = .broadcast msg) :
    ∃ answers rest, i = .resume answers ∧
      ((∃ p, m.pending = .applyConsensusMessage (.proposal p) :: rest ∧ Accepts m.engine p ∧
          msg = .prevote (prevoteMsg m.engine (some p.pmBlockHash))) ∨
        (∃ p value, m.pending = .applyConsensusMessage (.prevote p) :: rest ∧
          polka m.engine.ceState.csValidatorSet answers.prevotes = some value ∧
          msg = .precommit (precommitMsg m.engine value)) ∨
        (m.pending = .runConsensusRound :: rest ∧
          msg = .ownProposal (ownProposal m.engine))) := by
  cases i with
  | resume answers =>
      cases hpending : m.pending with
      | nil =>
          simp only [effect, hpending] at h
          cases h
      | cons task rest =>
          rw [effect_resume hpending] at h
          refine ⟨answers, rest, rfl, ?_⟩
          rcases Task.effect_eq_broadcast answers m.engine h with
            ⟨p, rfl, hvote⟩ | ⟨p, value, rfl, hvote⟩ | ⟨rfl, hvote⟩
          · exact Or.inl ⟨p, rfl, hvote⟩
          · exact Or.inr (Or.inl ⟨p, value, rfl, hvote⟩)
          · exact Or.inr (Or.inr ⟨rfl, hvote⟩)
  | timeoutHandler now =>
      simp only [effect] at h
      split at h <;> cases h
  | _ => cases h

def observation (m : Machine) : Observation := observe m.engine m.drained

/-- What a step does. -/
theorem observation_step (m : Machine) (i : Input) :
    (m.step i).observation = (m.effect i).apply m.observation := by
  cases i with
  | resume answers =>
      simp only [step, resume, effect]
      split
      · rfl
      · next task rest hpending =>
          cases hperform : perform answers m.engine task with
          | none =>
              rw [effect_eq_none answers m.engine hperform]
              rfl
          | some result => exact observe_perform answers m.engine m.drained hperform
  | timeoutHandler now =>
      simp only [step, effect]
      split
      · rfl
      · rfl
  | _ =>
      simp only [step, effect]
      split
      · rfl
      · rfl

end Machine

end Consensus

end CryptoCoin
