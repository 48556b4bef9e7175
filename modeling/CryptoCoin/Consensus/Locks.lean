import CryptoCoin.Consensus.Finality
import CryptoCoin.Consensus.Moves

/-!
# The lock and the valid round

The engine records the block it is locked on with the round of the lock, and the last
round in which it saw a polka. In order, there is a locked block exactly when there is a
locked round, the locked round is not after the valid round and the valid round is not
after the current one.

Three steps can break this order.

* A super-majority of prevotes of which the first is nil writes a locked round and no
  locked block.
* A new view takes the round from its message, which may be before the valid round.
* The round after the last one is the first.

A run keeps the order exactly when none of its steps does this.
-/

namespace CryptoCoin

namespace Consensus

open Protocol (ValidatorId PrivateKey Timestamp maxWord64)

/-- A locked block comes with a locked round, and locked, valid and current round are in
this order. -/
structure LocksConsistent (s : ConsensusState) : Prop where
  locked : s.csLockedBlock.isSome = true ↔ s.csLockedRound.isSome = true
  lockedRound_le : laterRound s.csLockedRound s.csValidRound = false
  validRound_le : laterRound s.csValidRound (some s.csRound) = false

/-! ### Moves -/

/-- The move locks on a block, or it enters a round that is not before the valid one. -/
def Move.KeepsLocks (s : ConsensusState) : Move → Prop
  | .lock value => value.isSome = true
  | .enter round => laterRound s.csValidRound (some round) = false
  | .startNextRound _ _ =>
      laterRound s.csValidRound (some ⟨s.csRound.unConsensusRound + 1⟩) = false
  | _ => True

theorem laterRound_self (r : Option ConsensusRound) : laterRound r r = false := by
  cases r with
  | none => rfl
  | some r => simp [laterRound]

theorem locksConsistent_apply_iff {s : ConsensusState} (h : LocksConsistent s) (mv : Move) :
    LocksConsistent (mv.apply s) ↔ mv.KeepsLocks s := by
  cases mv with
  | lock value =>
      constructor
      · intro hlocks
        exact hlocks.locked.mpr rfl
      · intro hvalue
        exact ⟨iff_of_true hvalue rfl, laterRound_self _, laterRound_self _⟩
  | enter round =>
      constructor
      · intro hlocks
        exact hlocks.validRound_le
      · intro hround
        exact ⟨h.locked, h.lockedRound_le, hround⟩
  | startNextRound now timeout =>
      constructor
      · intro hlocks
        exact hlocks.validRound_le
      · intro hround
        exact ⟨h.locked, h.lockedRound_le, hround⟩
  | _ => exact iff_of_true ⟨h.locked, h.lockedRound_le, h.validRound_le⟩ trivial

/-! ### Steps -/

/-- The last round is not left, or the valid round is not after the first one. -/
def NextRoundKeeps (s : ConsensusState) : Prop :=
  s.csRound.unConsensusRound ≠ maxWord64 ∨ laterRound s.csValidRound (some ⟨0⟩) = false

theorem nextRoundKeeps_iff {s : ConsensusState} (h : LocksConsistent s) :
    NextRoundKeeps s ↔
      laterRound s.csValidRound (some ⟨s.csRound.unConsensusRound + 1⟩) = false := by
  by_cases hmax : s.csRound.unConsensusRound = maxWord64
  · have hzero : maxWord64 + 1 = 0 := by decide
    rw [NextRoundKeeps, hmax, hzero]
    exact or_iff_right fun hne => hne rfl
  · refine iff_of_true (Or.inl hmax) ?_
    have hle := h.validRound_le
    cases hvalid : s.csValidRound with
    | none => rfl
    | some r =>
        simp only [hvalid, laterRound, gt_iff_lt, decide_eq_false_iff_not, UInt64.not_lt,
          UInt64.le_iff_toNat_le] at hle ⊢
        rw [Protocol.toNat_add_one hmax]
        exact Nat.le_succ_of_le hle

/-- The first of a super-majority of prevotes is for a block, a new view is not before
the valid round, and the last round is not left with a later valid round than the
first. -/
def Task.KeepsLocks (answers : Answers) (engine : ConsensusEngine) : Task → Prop
  | .applyConsensusMessage (.prevote _) =>
      superMajority engine.ceState.csValidatorSet (prevoteSenders answers.prevotes) = true →
        (firstBlock (answers.prevotes.map PrevoteMsg.prBlockHash)).isSome = true
  | .applyConsensusMessage (.precommit _) =>
      superMajority engine.ceState.csValidatorSet (precommitSenders answers.precommits) = true →
        firstBlock (answers.precommits.map PrecommitMsg.pcBlockHash) = none →
          NextRoundKeeps engine.ceState
  | .applyConsensusMessage (.viewChange _) =>
      superMajority engine.ceState.csValidatorSet (viewChangeSenders answers.viewChanges) = true →
        NextRoundKeeps engine.ceState
  | .applyConsensusMessage (.newView nv) =>
      laterRound engine.ceState.csValidRound (some ⟨nv.nvView⟩) = false
  | _ => True

theorem Task.keepsLocks_iff {answers : Answers} {engine : ConsensusEngine}
    (h : LocksConsistent engine.ceState) (task : Task) :
    (task.move answers engine).KeepsLocks engine.ceState ↔ task.KeepsLocks answers engine := by
  cases task with
  | runConsensusRound =>
      simp only [Task.move, Task.KeepsLocks]
      split <;> exact Iff.rfl
  | applyConsensusMessage msg =>
      cases msg with
      | prevote p =>
          simp only [Task.move, Task.KeepsLocks]
          split
          · next hmaj => exact ⟨fun hkeeps _ => hkeeps, fun hkeeps => hkeeps hmaj⟩
          · next hmaj =>
              refine iff_of_true ?_ fun hmaj' => absurd hmaj' hmaj
              split <;> trivial
      | precommit p =>
          simp only [Task.move, Task.KeepsLocks, nextRoundKeeps_iff h]
          split
          · next hmaj =>
              cases firstBlock (answers.precommits.map PrecommitMsg.pcBlockHash) with
              | none => simp [hmaj, Move.KeepsLocks]
              | some b => simp [Move.KeepsLocks]
          · next hmaj => simp [hmaj, Move.KeepsLocks]
      | viewChange vc =>
          simp only [Task.move, Task.KeepsLocks, nextRoundKeeps_iff h]
          split
          · next hmaj => exact ⟨fun hkeeps _ => hkeeps, fun hkeeps => hkeeps hmaj⟩
          · next hmaj => simp [hmaj, Move.KeepsLocks]
      | newView nv => exact Iff.rfl
      | ownProposal p => exact Iff.rfl
      | proposal p =>
          simp only [Task.move, Task.KeepsLocks]
          split <;> exact Iff.rfl
      | commit c =>
          simp only [Task.move, Task.KeepsLocks]
          split <;> exact Iff.rfl

namespace Machine

def KeepsLocks (m : Machine) : Input → Prop
  | .resume answers => ∀ task ∈ m.pending.head?, task.KeepsLocks answers m.engine
  | .timeoutHandler _ => m.pending = [] → NextRoundKeeps m.engine.ceState
  | _ => True

theorem locksConsistent_step_iff {m : Machine} (h : LocksConsistent m.engine.ceState)
    (i : Input) : LocksConsistent (m.step i).engine.ceState ↔ m.KeepsLocks i := by
  rw [ceState_step, locksConsistent_apply_iff h]
  cases i with
  | resume answers =>
      cases hpending : m.pending with
      | nil => simp [move, KeepsLocks, Move.KeepsLocks, hpending]
      | cons task rest =>
          rw [move_resume hpending, Task.keepsLocks_iff h]
          simp [KeepsLocks, hpending]
  | timeoutHandler now =>
      simp only [move, KeepsLocks, nextRoundKeeps_iff h]
      split
      · next hidle => exact ⟨fun hkeeps _ => hkeeps, fun hkeeps => hkeeps hidle⟩
      · next hbusy => simp [hbusy, Move.KeepsLocks]
  | _ => exact Iff.rfl

/-- Along a run of a new engine, the lock and the rounds are in order in every state
exactly when every step keeps them so. -/
theorem locks_consistent_iff (now : Timestamp) (config : ConsensusConfig)
    (privKey : PrivateKey) (validator : ValidatorId) (vset : ValidatorSet)
    (inputs : List Input) :
    Runs.Always step (fun m => LocksConsistent m.engine.ceState)
        (.ofEngine (newConsensusEngine now config privKey validator vset)) inputs ↔
      ∀ x ∈ Runs.trace step
          (.ofEngine (newConsensusEngine now config privKey validator vset)) inputs,
        x.1.KeepsLocks x.2 := by
  apply Runs.always_iff
  · exact ⟨iff_of_false Bool.false_ne_true Bool.false_ne_true, rfl, rfl⟩
  · intro x _ hlocks
    exact locksConsistent_step_iff hlocks x.2

end Machine

namespace FourValidators

/-- The prevotes of the other three, the first of them for no block. -/
def nilFirst : List PrevoteMsg :=
  [⟨none, ⟨0⟩, validator 0, ⟨[]⟩⟩, ⟨some (block 1), ⟨0⟩, validator 2, ⟨[]⟩⟩,
    ⟨some (block 1), ⟨0⟩, validator 3, ⟨[]⟩⟩]

/-- A prevote arrives, and these are collected. -/
def nilPolka : List Input :=
  [.applyConsensusMessage (.prevote ⟨none, ⟨0⟩, validator 0, ⟨[]⟩⟩),
    .resume { silence with prevotes := nilFirst }]

end FourValidators

open FourValidators in
/-- The engine then has a locked round and no locked block. -/
theorem nilPolka_locks_inconsistent :
    (Runs.run Machine.step (.ofEngine newEngine) nilPolka).engine.ceState.csLockedBlock = none ∧
      (Runs.run Machine.step (.ofEngine newEngine) nilPolka).engine.ceState.csLockedRound =
        some ⟨0⟩ ∧
      ¬ Runs.Always Machine.step (fun m => LocksConsistent m.engine.ceState)
        (.ofEngine newEngine) nilPolka := by
  have hblock : (Runs.run Machine.step (.ofEngine newEngine)
      nilPolka).engine.ceState.csLockedBlock = none := by decide +kernel
  have hround : (Runs.run Machine.step (.ofEngine newEngine)
      nilPolka).engine.ceState.csLockedRound = some ⟨0⟩ := by decide +kernel
  refine ⟨hblock, hround, ?_⟩
  intro halways
  have hlocked := (halways nilPolka [] (List.append_nil _).symm).locked
  rw [hblock, hround] at hlocked
  exact absurd (hlocked.mpr rfl) Bool.false_ne_true

end Consensus

end CryptoCoin
