import CryptoCoin.Library.Quorum
import CryptoCoin.Protocol.Types
import Mathlib.Data.Finset.Dedup
import Mathlib.Data.UInt

/-!
# Consensus types

The records of `CryptoCoin.Consensus.Types` that the engine reads or writes, and
the counting of voting power. A validator entry carries an address and votes
carry a validator identifier; they are compared as identifiers. The block of a
proposal is its hash, the only thing of it that the engine uses.

`superMajority` computes in 64-bit words. For a validator set whose declared
total is the exact sum of the powers and small enough (`ValidatorSet.Exact`), it
is the exact two-thirds test (`superMajority_iff`), and with that the quorums of
`QuorumSystem.ofWeight`.
-/

namespace CryptoCoin

namespace Consensus

open Protocol (ValidatorId Address Signature PrivateKey)

abbrev BlockHash := Protocol.Hash

/-! ### Validators -/

structure ValidatorPower where
  unValidatorPower : UInt64
  deriving DecidableEq

inductive ValidatorStatus where
  | active
  | inactive
  | jailed
  | tombstoned
  | unbonding
  deriving DecidableEq

structure ValidatorInfo where
  viAddress : Address
  viPower : ValidatorPower
  viStatus : ValidatorStatus
  deriving DecidableEq

structure ValidatorSet where
  vsValidators : List ValidatorInfo
  vsTotalPower : ValidatorPower
  deriving DecidableEq

/-- The power of the validators among the voters, in 64-bit arithmetic. -/
def voterPower (validators : List ValidatorInfo) (voters : Finset ValidatorId) : UInt64 :=
  ((validators.filter fun v => ⟨v.viAddress⟩ ∈ voters).map
    fun v => v.viPower.unValidatorPower).sum

def superMajority (vset : ValidatorSet) (voters : Finset ValidatorId) : Bool :=
  let totalPower := vset.vsTotalPower.unValidatorPower
  voterPower vset.vsValidators voters * 3 > totalPower * 2

def isValidatorActive (v : ValidatorInfo) : Bool := v.viStatus = .active

def activeValidators (vset : ValidatorSet) : List ValidatorInfo :=
  vset.vsValidators.filter isValidatorActive

/-! ### Rounds and state -/

structure ConsensusRound where
  unConsensusRound : UInt64
  deriving DecidableEq

/-- The derived `>` on `Maybe ConsensusRound`, where `Nothing` is the least. -/
def laterRound : Option ConsensusRound → Option ConsensusRound → Bool
  | some r, some r' => r.unConsensusRound > r'.unConsensusRound
  | some _, none => true
  | none, _ => false

inductive ConsensusStep where
  | proposePhase
  | prevotePhase
  | precommitPhase
  | commitPhase
  deriving DecidableEq

structure ConsensusState where
  csRound : ConsensusRound
  csStep : ConsensusStep
  -- the inner `none` is the hash of an undefined block
  csProposedBlock : Option (Option BlockHash)
  csValidatorSet : ValidatorSet
  csLockedBlock : Option BlockHash
  csLockedRound : Option ConsensusRound
  csValidBlock : Option BlockHash
  csValidRound : Option ConsensusRound
  csDecision : Option BlockHash
  csRoundStart : Protocol.Timestamp
  csTimeout : UInt64
  deriving DecidableEq

structure ConsensusConfig where
  ccTimeoutPropose : UInt64
  deriving DecidableEq

/-! ### Messages -/

structure ProposalMsg where
  pmBlockHash : BlockHash
  pmRound : ConsensusRound
  pmValidRound : Option ConsensusRound
  pmProposer : ValidatorId
  pmSignature : Signature
  deriving DecidableEq

structure PrevoteMsg where
  prBlockHash : Option BlockHash
  prRound : ConsensusRound
  prSender : ValidatorId
  prSignature : Signature
  deriving DecidableEq

structure PrecommitMsg where
  pcBlockHash : Option BlockHash
  pcRound : ConsensusRound
  pcSender : ValidatorId
  pcSignature : Signature
  deriving DecidableEq

structure CommitMsg where
  cmBlockHash : BlockHash
  cmRound : ConsensusRound
  cmSender : ValidatorId
  cmSignature : Signature
  deriving DecidableEq

structure ViewChange where
  vcNewView : UInt64
  vcLastRound : ConsensusRound
  vcSender : ValidatorId
  vcSig : Signature
  deriving DecidableEq

structure NewView where
  nvView : UInt64
  nvSender : ValidatorId
  nvSig : Signature
  deriving DecidableEq

/-- The proposal that `proposeBlock` makes. Its block is `undefined` and the field is strict:
the message can be queued, but whoever looks at it gets an exception. -/
structure OwnProposal where
  pmRound : ConsensusRound
  pmValidRound : Option ConsensusRound
  pmProposer : ValidatorId
  pmSignature : Signature
  deriving DecidableEq

inductive ConsensusMessage where
  | proposal (p : ProposalMsg)
  | ownProposal (p : OwnProposal)
  | prevote (p : PrevoteMsg)
  | precommit (p : PrecommitMsg)
  | commit (c : CommitMsg)
  | viewChange (vc : ViewChange)
  | newView (nv : NewView)
  deriving DecidableEq

/-! ### Exact power -/

def ValidatorSet.members (vset : ValidatorSet) : List (ValidatorId × ℕ) :=
  vset.vsValidators.map fun v => (⟨v.viAddress⟩, v.viPower.unValidatorPower.toNat)

/-- The declared total is the exact sum of the powers, and three times it fits
into a word. -/
structure ValidatorSet.Exact (vset : ValidatorSet) : Prop where
  total : vset.vsTotalPower.unValidatorPower.toNat = QuorumSystem.total vset.members
  bound : 3 * QuorumSystem.total vset.members < 2 ^ 64

theorem toNat_voterPower (vset : ValidatorSet) (voters : Finset ValidatorId) :
    (voterPower vset.vsValidators voters).toNat =
      QuorumSystem.weight vset.members (· ∈ voters) % 2 ^ 64 := by
  rw [ValidatorSet.members]
  induction vset.vsValidators with
  | nil => rfl
  | cons v vs ih =>
      rw [voterPower, QuorumSystem.weight] at ih ⊢
      by_cases hv : (⟨v.viAddress⟩ : ValidatorId) ∈ voters
      · simp only [List.filter_cons, hv, decide_true, if_true, List.map_cons, List.sum_cons,
          UInt64.toNat_add, ih, Nat.add_mod_mod]
      · simp only [List.filter_cons, hv, decide_false, Bool.false_eq_true, if_false,
          List.map_cons, List.sum_cons, ih, Nat.zero_add]

theorem superMajority_iff_mod (vset : ValidatorSet) (voters : Finset ValidatorId) :
    superMajority vset voters = true ↔
      2 * vset.vsTotalPower.unValidatorPower.toNat % 2 ^ 64 <
        3 * QuorumSystem.weight vset.members (· ∈ voters) % 2 ^ 64 := by
  have htwo : (2 : UInt64).toNat = 2 := rfl
  have hthree : (3 : UInt64).toNat = 3 := rfl
  simp only [superMajority, gt_iff_lt, decide_eq_true_eq]
  rw [UInt64.lt_iff_toNat_lt, UInt64.toNat_mul, UInt64.toNat_mul, toNat_voterPower, htwo, hthree,
    Nat.mod_mul_mod, Nat.mul_comm, Nat.mul_comm 3]

/-- On exact validator sets `superMajority` tests for more than two thirds. -/
theorem superMajority_iff {vset : ValidatorSet} (h : vset.Exact) (voters : Finset ValidatorId) :
    superMajority vset voters = true ↔
      2 * QuorumSystem.total vset.members <
        3 * QuorumSystem.weight vset.members (· ∈ voters) := by
  have hbound := h.bound
  have hle := QuorumSystem.weight_le_total vset.members (p := (· ∈ voters))
  rw [superMajority_iff_mod, h.total, Nat.mod_eq_of_lt (by omega), Nat.mod_eq_of_lt (by omega)]

/-- Two super-majorities of an exact validator set share more than one third of the
power, so a coalition with at most one third misses a validator of the overlap. -/
theorem superMajority_overlap {vset : ValidatorSet} (h : vset.Exact)
    {A B : Finset ValidatorId} (hA : superMajority vset A = true)
    (hB : superMajority vset B = true) :
    vset.vsTotalPower.unValidatorPower.toNat <
        3 * QuorumSystem.weight vset.members (· ∈ A ∩ B) ∧
      ∀ C : Finset ValidatorId,
        3 * QuorumSystem.weight vset.members (· ∈ C) ≤
          vset.vsTotalPower.unValidatorPower.toNat →
        ∃ v ∈ vset.vsValidators, ⟨v.viAddress⟩ ∈ A ∩ B ∧ ⟨v.viAddress⟩ ∉ C := by
  rw [superMajority_iff h] at hA hB
  have hoverlap : vset.vsTotalPower.unValidatorPower.toNat <
      3 * QuorumSystem.weight vset.members (· ∈ A ∩ B) := by
    rw [h.total]
    simpa only [Finset.mem_inter] using QuorumSystem.total_lt_weight_inter vset.members hA hB
  refine ⟨hoverlap, ?_⟩
  intro C hC
  by_contra hnone
  -- a coalition that contains the overlap is at least as heavy
  have hle : QuorumSystem.weight vset.members (· ∈ A ∩ B) ≤
      QuorumSystem.weight vset.members (· ∈ C) := by
    apply QuorumSystem.weight_le_weight_of_mem
    intro m hm hmem
    obtain ⟨v, hv, rfl⟩ := List.mem_map.mp hm
    by_contra hout
    exact hnone ⟨v, hv, hmem, hout⟩
  exact absurd (hoverlap.trans_le (Nat.mul_le_mul_left 3 hle)) (Nat.not_lt.mpr hC)

namespace ThreeValidators

/-- The validators are told apart by the bytes of their addresses. -/
def validator (n : UInt8) : ValidatorId := ⟨⟨List.replicate 20 n⟩⟩

def vset : ValidatorSet :=
  { vsValidators := [(0, 3), (1, 2), (2, 2)].map fun (n, power) =>
      ⟨(validator n).address, ⟨power⟩, .active⟩
    vsTotalPower := ⟨7⟩ }

end ThreeValidators

open ThreeValidators in
/-- The first validator with either of the others is a super-majority. -/
theorem threeValidators_overlap :
    vset.Exact ∧ superMajority vset {validator 0, validator 1} = true ∧
      superMajority vset {validator 0, validator 2} = true ∧
      7 < 3 * QuorumSystem.weight vset.members
        (· ∈ ({validator 0, validator 1} ∩ {validator 0, validator 2} : Finset ValidatorId)) := by
  have hexact : vset.Exact := ⟨by decide, by decide⟩
  have hA : superMajority vset {validator 0, validator 1} = true := by decide
  have hB : superMajority vset {validator 0, validator 2} = true := by decide
  exact ⟨hexact, hA, hB, (superMajority_overlap hexact hA hB).1⟩

end Consensus

end CryptoCoin
