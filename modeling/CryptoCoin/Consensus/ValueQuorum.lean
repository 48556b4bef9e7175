import CryptoCoin.Consensus.Engine

/-!
# Which votes justify a lock or a decision

`handlePrevote` and `handlePrecommit` test the quorum on the senders of all the
votes they collect and take the value of the first one. A lock or a decision is
justified when the senders of votes for exactly its block are a super-majority.
For every engine and every list of collected votes this is decided by the first
vote alone.
-/

namespace CryptoCoin

namespace Consensus

open Protocol (ValidatorId Timestamp)

def prevotesFor (prevotes : List PrevoteMsg) (b : Option BlockHash) : List PrevoteMsg :=
  prevotes.filter fun p => p.prBlockHash = b

theorem filter_isNone_eq_prevotesFor (prevotes : List PrevoteMsg) :
    (prevotes.filter fun p => p.prBlockHash.isNone) = prevotesFor prevotes none := by
  apply List.filter_congr
  intro p _
  cases p.prBlockHash with
  | none => rfl
  | some h => rfl

def precommitsFor (precommits : List PrecommitMsg) (b : Option BlockHash) :
    List PrecommitMsg :=
  precommits.filter fun p => p.pcBlockHash = b

/-- Once the senders of all prevotes are a super-majority, the first prevote keeps
the lock or is for a block whose own voters are one. -/
def FirstPrevoteBacked (vset : ValidatorSet) (lockedBlock : Option BlockHash)
    (prevotes : List PrevoteMsg) : Prop :=
  let first := firstBlock (prevotes.map PrevoteMsg.prBlockHash)
  superMajority vset (prevoteSenders prevotes) →
    first = lockedBlock ∨
      (first ≠ none ∧ superMajority vset (prevoteSenders (prevotesFor prevotes first)))

/-- Once the senders of all precommits are a super-majority, a first precommit for
a block has a super-majority of its own. -/
def FirstPrecommitBacked (vset : ValidatorSet) (precommits : List PrecommitMsg) : Prop :=
  let first := firstBlock (precommits.map PrecommitMsg.pcBlockHash)
  superMajority vset (precommitSenders precommits) → first ≠ none →
    superMajority vset (precommitSenders (precommitsFor precommits first))

instance (vset : ValidatorSet) (precommits : List PrecommitMsg) :
    Decidable (FirstPrecommitBacked vset precommits) :=
  inferInstanceAs (Decidable (_ → _ → _))

/-! ### Locks -/

section Lock

variable (collectVotes : ConsensusEngine → ConsensusStep → ConsensusRound → List PrevoteMsg)
  (engine : ConsensusEngine) (prevote : PrevoteMsg)

/-- If `handlePrevote` changes the lock, it is to a block that a super-majority
prevoted for. -/
def LockJustified : Prop :=
  let after := (handlePrevote collectVotes engine prevote).ceState
  let prevotes := collectVotes engine .prevotePhase engine.ceState.csRound
  after.csLockedBlock ≠ engine.ceState.csLockedBlock →
    ∃ h, after.csLockedBlock = some h ∧
      superMajority engine.ceState.csValidatorSet (prevoteSenders (prevotesFor prevotes (some h)))

theorem csLockedBlock_handlePrevote :
    (handlePrevote collectVotes engine prevote).ceState.csLockedBlock =
      if superMajority engine.ceState.csValidatorSet
          (prevoteSenders (collectVotes engine .prevotePhase engine.ceState.csRound)) then
        firstBlock ((collectVotes engine .prevotePhase engine.ceState.csRound).map
          PrevoteMsg.prBlockHash)
      else engine.ceState.csLockedBlock := by
  simp only [handlePrevote]
  split
  · rfl
  · split
    · rfl
    · rfl

theorem lockJustified_iff :
    LockJustified collectVotes engine prevote ↔
      FirstPrevoteBacked engine.ceState.csValidatorSet engine.ceState.csLockedBlock
        (collectVotes engine .prevotePhase engine.ceState.csRound) := by
  simp only [LockJustified, FirstPrevoteBacked, csLockedBlock_handlePrevote]
  by_cases hmaj : superMajority engine.ceState.csValidatorSet
      (prevoteSenders (collectVotes engine .prevotePhase engine.ceState.csRound)) = true
  · cases firstBlock ((collectVotes engine .prevotePhase engine.ceState.csRound).map
        PrevoteMsg.prBlockHash) with
    | none => simp [hmaj]
    | some h => simp [hmaj, or_iff_not_imp_left]
  · simp only [hmaj, Bool.false_eq_true, if_false, ne_eq, not_true_eq_false, false_implies]

end Lock

/-! ### Decisions -/

section Decision

variable (collectVotes : ConsensusEngine → ConsensusStep → ConsensusRound → List PrecommitMsg)
  (now : Timestamp) (engine : ConsensusEngine) (precommit : PrecommitMsg)

/-- `handlePrecommit` writes a decision for `h`. The counter of committed blocks
moves exactly when it does, also over an equal decision. -/
def Decides (h : BlockHash) : Prop :=
  let after := handlePrecommit collectVotes now engine precommit
  after.ceMetrics.cmBlocksCommitted ≠ engine.ceMetrics.cmBlocksCommitted ∧
    after.ceState.csDecision = some h

/-- If `handlePrecommit` decides on a block, the senders of precommits for exactly
that block are a super-majority. -/
def DecisionJustified : Prop :=
  ∀ h, Decides collectVotes now engine precommit h →
    superMajority engine.ceState.csValidatorSet (precommitSenders (precommitsFor
      (collectVotes engine .precommitPhase engine.ceState.csRound) (some h)))

theorem decides_iff (h : BlockHash) :
    Decides collectVotes now engine precommit h ↔
      superMajority engine.ceState.csValidatorSet
          (precommitSenders (collectVotes engine .precommitPhase engine.ceState.csRound)) ∧
        firstBlock ((collectVotes engine .precommitPhase engine.ceState.csRound).map
          PrecommitMsg.pcBlockHash) = some h := by
  have hmoves : ∀ n : UInt64, n + 1 ≠ n := by
    intro n hn
    exact absurd (UInt64.add_eq_left.mp hn) (by decide)
  simp only [Decides, handlePrecommit]
  by_cases hmaj : superMajority engine.ceState.csValidatorSet
      (precommitSenders (collectVotes engine .precommitPhase engine.ceState.csRound)) = true
  · cases hfirst : firstBlock ((collectVotes engine .precommitPhase
        engine.ceState.csRound).map PrecommitMsg.pcBlockHash) with
    | none =>
        simp [hmaj, startNextRound, ConsensusEngine.modifyState, ConsensusEngine.modifyMetrics]
    | some hash =>
        simp [hmaj, commitBlock, ConsensusEngine.modifyState, ConsensusEngine.modifyMetrics,
          hmoves]
  · simp [hmaj]

theorem decisionJustified_iff :
    DecisionJustified collectVotes now engine precommit ↔
      FirstPrecommitBacked engine.ceState.csValidatorSet
        (collectVotes engine .precommitPhase engine.ceState.csRound) := by
  simp only [DecisionJustified, FirstPrecommitBacked, decides_iff]
  constructor
  · intro hall hmaj hsome
    obtain ⟨h, hfirst⟩ := Option.ne_none_iff_exists'.mp hsome
    rw [hfirst]
    exact hall h ⟨hmaj, hfirst⟩
  · intro hall h hdec
    have hbacked := hall hdec.1 (by rw [hdec.2]; simp)
    rwa [hdec.2] at hbacked

end Decision

/-- For every engine and all collected votes: locks are justified exactly when the
first prevote is backed, and decisions exactly when the first precommit is. -/
theorem valueQuorum_iff
    (collectPrevotes : ConsensusEngine → ConsensusStep → ConsensusRound → List PrevoteMsg)
    (collectPrecommits : ConsensusEngine → ConsensusStep → ConsensusRound → List PrecommitMsg)
    (now : Timestamp) (engine : ConsensusEngine) (prevote : PrevoteMsg)
    (precommit : PrecommitMsg) :
    (LockJustified collectPrevotes engine prevote ↔
        FirstPrevoteBacked engine.ceState.csValidatorSet engine.ceState.csLockedBlock
          (collectPrevotes engine .prevotePhase engine.ceState.csRound)) ∧
      (DecisionJustified collectPrecommits now engine precommit ↔
        FirstPrecommitBacked engine.ceState.csValidatorSet
          (collectPrecommits engine .precommitPhase engine.ceState.csRound)) :=
  ⟨lockJustified_iff collectPrevotes engine prevote,
    decisionJustified_iff collectPrecommits now engine precommit⟩

/-! ### Four validators -/

namespace FourValidators

def validator (n : UInt8) : ValidatorId := ⟨⟨List.replicate 20 n⟩⟩

def vset : ValidatorSet :=
  { vsValidators := [0, 1, 2, 3].map fun n => ⟨(validator n).address, ⟨1⟩, .active⟩
    vsTotalPower := ⟨4⟩ }

def block (n : UInt8) : BlockHash := ⟨List.replicate 32 n⟩

/-- An engine of the second validator that is locked on block 1 since round 0 and
is in round 1. -/
def lockedEngine : ConsensusEngine :=
  (newConsensusEngine ⟨0⟩ ⟨1000⟩ ⟨List.replicate 32 9⟩ (validator 1) vset).modifyState fun s =>
    { s with
      csRound := ⟨1⟩
      csLockedBlock := some (block 1)
      csLockedRound := some ⟨0⟩ }

def prevote (sender : UInt8) (b : Option BlockHash) : PrevoteMsg :=
  ⟨b, ⟨1⟩, validator sender, ⟨[]⟩⟩

def precommit (sender : UInt8) (b : Option BlockHash) : PrecommitMsg :=
  ⟨b, ⟨1⟩, validator sender, ⟨[]⟩⟩

/-- A nil prevote in front of two prevotes for block 1. -/
def mixedPrevotes : List PrevoteMsg :=
  [prevote 0 none, prevote 2 (some (block 1)), prevote 3 (some (block 1))]

/-- A precommit for block 2 in front of two precommits for block 1. -/
def mixedPrecommits : List PrecommitMsg :=
  [precommit 0 (some (block 2)), precommit 2 (some (block 1)), precommit 3 (some (block 1))]

end FourValidators

open FourValidators in
/-- The nil prevote erases the lock, and the engine decides on block 2 with one
vote of four for it. -/
theorem fourValidators_not_justified :
    ¬ LockJustified (fun _ _ _ => mixedPrevotes) lockedEngine (prevote 0 none) ∧
      ¬ DecisionJustified (fun _ _ _ => mixedPrecommits) ⟨0⟩ lockedEngine
        (precommit 0 (some (block 2))) := by
  constructor
  · intro h
    obtain ⟨b, hb, _⟩ := h (by decide)
    cases hb
  · intro h
    exact absurd (h (block 2) ⟨by decide, rfl⟩) (by decide)

end Consensus

end CryptoCoin
