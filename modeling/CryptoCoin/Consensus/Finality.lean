import CryptoCoin.Consensus.Machine
import CryptoCoin.Consensus.ValueQuorum

/-!
# Decisions and rounds over whole runs

A decision is final, and rounds only grow, along a run of one engine exactly when
every step of the run meets a condition on its input and the state it meets.

* `handlePrecommit` writes the decision and does not look at the one that is there.
  A decision is final as long as every later super-majority of precommits starts
  with a precommit for the decided block.
* `handleNewView` writes the round of the message, whatever it is, and the three
  operations that go to the next round add one to a machine word. Rounds grow as
  long as new views are not behind and the last round is not left.
-/

namespace CryptoCoin

namespace Consensus

open Protocol (maxWord64)

/-! ### Decisions -/

/-- The precommits do not decide against the engine's decision. -/
def Task.KeepsDecision (answers : Answers) (engine : ConsensusEngine) : Task → Prop
  | .applyConsensusMessage (.precommit _) =>
      superMajority engine.ceState.csValidatorSet (precommitSenders answers.precommits) = true →
        ∀ b, firstBlock (answers.precommits.map PrecommitMsg.pcBlockHash) = some b →
          engine.ceState.csDecision = none ∨ engine.ceState.csDecision = some b
  | _ => True

namespace Machine

def KeepsDecision (m : Machine) : Input → Prop
  | .resume answers => ∀ task ∈ m.pending.head?, task.KeepsDecision answers m.engine
  | _ => True

def DecisionPersists (m m' : Machine) : Prop :=
  ∀ b, m.engine.ceState.csDecision = some b → m'.engine.ceState.csDecision = some b

/-- Only an effect that decides can change a decision. -/
theorem decisionPersists_step_iff (m : Machine) (i : Input) :
    DecisionPersists m (m.step i) ↔
      ∀ b, m.effect i = .decide b →
        m.engine.ceState.csDecision = none ∨ m.engine.ceState.csDecision = some b := by
  have hstep : (m.step i).engine.ceState.csDecision =
      ((m.effect i).apply m.observation).decision :=
    congrArg Observation.decision (observation_step m i)
  rw [DecisionPersists, hstep]
  cases m.effect i with
  | decide b =>
      simp only [Effect.apply, Effect.decide.injEq, forall_eq']
      cases m.engine.ceState.csDecision with
      | none => simp
      | some d => simp [eq_comm]
  | _ => simp [Effect.apply, observation, observe]

end Machine

theorem Task.keepsDecision_iff (answers : Answers) (engine : ConsensusEngine) (task : Task) :
    task.KeepsDecision answers engine ↔
      ∀ b, task.effect answers engine = .decide b →
        engine.ceState.csDecision = none ∨ engine.ceState.csDecision = some b := by
  cases task with
  | runConsensusRound =>
      simp only [Task.KeepsDecision, Task.effect]
      split <;> simp
  | applyConsensusMessage msg =>
      cases msg with
      | precommit p =>
          simp only [Task.KeepsDecision, Task.effect]
          split
          · next hmaj =>
              cases firstBlock (answers.precommits.map PrecommitMsg.pcBlockHash) with
              | none => simp
              | some b => simp [hmaj]
          · next hmaj => simp [hmaj]
      | commit c =>
          -- a commit message repeats the decision, if there is one
          simp only [Task.KeepsDecision, Task.effect]
          split
          · next hcommit =>
              cases hd : engine.ceState.csDecision with
              | none => simp
              | some d => simpa [hd, eq_comm] using hcommit.2
          · simp
      | prevote p =>
          simp only [Task.KeepsDecision, Task.effect]
          split <;> simp
      | proposal p =>
          simp only [Task.KeepsDecision, Task.effect]
          split <;> simp
      | viewChange vc =>
          simp only [Task.KeepsDecision, Task.effect]
          split <;> simp
      | ownProposal p => simp [Task.KeepsDecision, Task.effect]
      | newView nv => simp [Task.KeepsDecision, Task.effect]

namespace Machine

theorem keepsDecision_iff (m : Machine) (i : Input) :
    m.KeepsDecision i ↔ DecisionPersists m (m.step i) := by
  rw [decisionPersists_step_iff]
  cases i with
  | resume answers =>
      simp only [KeepsDecision, effect]
      cases m.pending with
      | nil => simp
      | cons task rest => simpa using Task.keepsDecision_iff answers m.engine task
  | timeoutHandler now =>
      simp only [KeepsDecision, effect]
      split <;> simp
  | _ => simp [KeepsDecision, effect]

/-- Along every run of an engine, decisions are final exactly when every step that
handles a precommit finds the engine undecided or decided on the block it is about
to decide on. -/
theorem decision_final_iff (m : Machine) (inputs : List Input) :
    Runs.Along step DecisionPersists m inputs ↔
      ∀ x ∈ Runs.trace step m inputs, x.1.KeepsDecision x.2 := by
  rw [Runs.along_iff]
  · simp only [keepsDecision_iff]
  · intro m b hb
    exact hb
  · intro m₁ m₂ m₃ h₁₂ h₂₃ b hb
    exact h₂₃ b (h₁₂ b hb)

end Machine

namespace FourValidators

def newEngine : ConsensusEngine :=
  newConsensusEngine ⟨0⟩ ⟨1000⟩ ⟨List.replicate 32 9⟩ (validator 1) vset

def silence : Answers := ⟨⟨0⟩, [], [], []⟩

def precommitsOn (b : BlockHash) (round : ConsensusRound) : List PrecommitMsg :=
  [0, 2, 3].map fun n => ⟨some b, round, validator n, ⟨[]⟩⟩

/-- Three precommits for block 1 in round 0, a timeout, and three precommits for
block 2 in round 1. -/
def twoDecisions : List Input :=
  [.applyConsensusMessage (.precommit ⟨some (block 1), ⟨0⟩, validator 0, ⟨[]⟩⟩),
    .resume { silence with precommits := precommitsOn (block 1) ⟨0⟩ },
    .timeoutHandler ⟨0⟩,
    .applyConsensusMessage (.precommit ⟨some (block 2), ⟨1⟩, validator 0, ⟨[]⟩⟩),
    .resume { silence with precommits := precommitsOn (block 2) ⟨1⟩ }]

/-- A timeout, and a new view for the round that has timed out. -/
def roundBack : List Input :=
  [.timeoutHandler ⟨0⟩, .applyConsensusMessage (.newView ⟨0, validator 0, ⟨[]⟩⟩),
    .resume silence]

end FourValidators

open FourValidators in
/-- The engine decides on block 1 and then on block 2. -/
theorem twoDecisions_not_final :
    (Runs.run Machine.step (.ofEngine newEngine)
        (twoDecisions.take 2)).engine.ceState.csDecision = some (block 1) ∧
      (Runs.run Machine.step (.ofEngine newEngine)
        twoDecisions).engine.ceState.csDecision = some (block 2) ∧
      ¬ Runs.Along Machine.step Machine.DecisionPersists (.ofEngine newEngine) twoDecisions := by
  have hfirst : (Runs.run Machine.step (.ofEngine newEngine)
      (twoDecisions.take 2)).engine.ceState.csDecision = some (block 1) := by decide +kernel
  have hsecond : (Runs.run Machine.step (.ofEngine newEngine)
      twoDecisions).engine.ceState.csDecision = some (block 2) := by decide +kernel
  refine ⟨hfirst, hsecond, ?_⟩
  intro halong
  have hkept := halong (twoDecisions.take 2) (twoDecisions.drop 2) [] rfl (block 1) hfirst
  rw [List.take_append_drop, hsecond] at hkept
  exact absurd hkept (by decide)

/-! ### Rounds -/

/-- New views are not behind, and the last round is not left. -/
def Task.KeepsRound (answers : Answers) (engine : ConsensusEngine) : Task → Prop
  | .applyConsensusMessage (.precommit _) =>
      superMajority engine.ceState.csValidatorSet (precommitSenders answers.precommits) = true →
        firstBlock (answers.precommits.map PrecommitMsg.pcBlockHash) = none →
          engine.ceState.csRound.unConsensusRound ≠ maxWord64
  | .applyConsensusMessage (.viewChange _) =>
      superMajority engine.ceState.csValidatorSet (viewChangeSenders answers.viewChanges) = true →
        engine.ceState.csRound.unConsensusRound ≠ maxWord64
  | .applyConsensusMessage (.newView nv) =>
      engine.ceState.csRound.unConsensusRound ≤ nv.nvView
  | _ => True

/-- The word after the last one is the first. -/
theorem le_nextRound_iff (engine : ConsensusEngine) :
    engine.ceState.csRound.unConsensusRound ≤ (nextRound engine).unConsensusRound ↔
      engine.ceState.csRound.unConsensusRound ≠ maxWord64 := by
  rw [nextRound, UInt64.le_iff_toNat_le]
  constructor
  · intro hle hmax
    rw [hmax] at hle
    exact absurd hle (by decide)
  · intro hmax
    rw [Protocol.toNat_add_one hmax]
    exact Nat.le_succ _

theorem Task.keepsRound_iff (answers : Answers) (engine : ConsensusEngine) (task : Task) :
    task.KeepsRound answers engine ↔
      ∀ r, task.effect answers engine = .enter r →
        engine.ceState.csRound.unConsensusRound ≤ r.unConsensusRound := by
  cases task with
  | runConsensusRound =>
      simp only [Task.KeepsRound, Task.effect]
      split <;> simp
  | applyConsensusMessage msg =>
      cases msg with
      | precommit p =>
          simp only [Task.KeepsRound, Task.effect]
          split
          · next hmaj =>
              cases firstBlock (answers.precommits.map PrecommitMsg.pcBlockHash) with
              | none => simp [hmaj, le_nextRound_iff]
              | some b => simp
          · next hmaj => simp [hmaj]
      | viewChange vc =>
          simp only [Task.KeepsRound, Task.effect]
          split
          · next hmaj => simp [hmaj, le_nextRound_iff]
          · next hmaj => simp [hmaj]
      | newView nv => simp [Task.KeepsRound, Task.effect]
      | ownProposal p => simp [Task.KeepsRound, Task.effect]
      | proposal p =>
          simp only [Task.KeepsRound, Task.effect]
          split <;> simp
      | prevote p =>
          simp only [Task.KeepsRound, Task.effect]
          split <;> simp
      | commit c =>
          simp only [Task.KeepsRound, Task.effect]
          split <;> simp

namespace Machine

def KeepsRound (m : Machine) : Input → Prop
  | .resume answers => ∀ task ∈ m.pending.head?, task.KeepsRound answers m.engine
  | .timeoutHandler _ =>
      m.pending = [] → m.engine.ceState.csRound.unConsensusRound ≠ maxWord64
  | _ => True

def RoundLe (m m' : Machine) : Prop :=
  m.engine.ceState.csRound.unConsensusRound ≤ m'.engine.ceState.csRound.unConsensusRound

theorem roundLe_step_iff (m : Machine) (i : Input) :
    RoundLe m (m.step i) ↔
      ∀ r, m.effect i = .enter r →
        m.engine.ceState.csRound.unConsensusRound ≤ r.unConsensusRound := by
  have hstep : (m.step i).engine.ceState.csRound =
      ((m.effect i).apply m.observation).round :=
    congrArg Observation.round (observation_step m i)
  rw [RoundLe, hstep]
  cases m.effect i with
  | enter r => simp [Effect.apply]
  | _ => simp [Effect.apply, observation, observe]

theorem keepsRound_iff (m : Machine) (i : Input) : m.KeepsRound i ↔ RoundLe m (m.step i) := by
  rw [roundLe_step_iff]
  cases i with
  | resume answers =>
      simp only [KeepsRound, effect]
      cases m.pending with
      | nil => simp
      | cons task rest => simpa using Task.keepsRound_iff answers m.engine task
  | timeoutHandler now =>
      simp only [KeepsRound, effect]
      split
      · next hidle => simp [hidle, le_nextRound_iff]
      · next hbusy => simp [hbusy]
  | _ => simp [KeepsRound, effect]

/-- Along every run of an engine, rounds never decrease exactly when no new view is
behind the engine's round and no step leaves the last round. -/
theorem round_monotone_iff (m : Machine) (inputs : List Input) :
    Runs.Along step RoundLe m inputs ↔
      ∀ x ∈ Runs.trace step m inputs, x.1.KeepsRound x.2 := by
  rw [Runs.along_iff]
  · simp only [keepsRound_iff]
  · intro m
    exact UInt64.le_refl _
  · intro m₁ m₂ m₃ h₁₂ h₂₃
    exact UInt64.le_trans h₁₂ h₂₃

end Machine

open FourValidators in
/-- The new view takes the engine from round 1 back to round 0. -/
theorem roundBack_not_monotone :
    (Runs.run Machine.step (.ofEngine newEngine)
        (roundBack.take 1)).engine.ceState.csRound = ⟨1⟩ ∧
      (Runs.run Machine.step (.ofEngine newEngine) roundBack).engine.ceState.csRound = ⟨0⟩ ∧
      ¬ Runs.Along Machine.step Machine.RoundLe (.ofEngine newEngine) roundBack := by
  have hfirst : (Runs.run Machine.step (.ofEngine newEngine)
      (roundBack.take 1)).engine.ceState.csRound = ⟨1⟩ := by decide +kernel
  have hsecond : (Runs.run Machine.step (.ofEngine newEngine)
      roundBack).engine.ceState.csRound = ⟨0⟩ := by decide +kernel
  refine ⟨hfirst, hsecond, ?_⟩
  intro halong
  have hle := halong (roundBack.take 1) (roundBack.drop 1) [] rfl
  rw [List.take_append_drop, Machine.RoundLe, hfirst, hsecond] at hle
  exact absurd hle (by decide)

end Consensus

end CryptoCoin
