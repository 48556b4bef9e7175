import CryptoCoin.Consensus.Types
import CryptoCoin.Protocol.Crypto
import CryptoCoin.Protocol.Serialize
import Mathlib.Tactic.Tauto

/-!
# What a consensus signature covers

Proposals, prevotes and precommits are signed over bytes without a tag.
`SignedMessage.payload` is the byte string that the engine passes to
`signMessage` for a message, and `SignedMessage.Confusable` lists the pairs of
messages that share it although they differ in kind, round or block: two
proposals of one proposer in one round, a prevote and the precommit for the same
block, and a nil vote and a vote for the zero hash.
-/

namespace CryptoCoin

namespace Consensus

open Protocol (ValidatorId ByteString)

/-! ### Serializers -/

def serializeConsensusRound (round : ConsensusRound) : ByteString :=
  let w := round.unConsensusRound
  [(w >>> 56).toUInt8, (w >>> 48).toUInt8, (w >>> 40).toUInt8, (w >>> 32).toUInt8,
    (w >>> 24).toUInt8, (w >>> 16).toUInt8, (w >>> 8).toUInt8, w.toUInt8]

def serializeValidatorId (v : ValidatorId) : ByteString := v.address.bytes

def serializeBlockHash (h : BlockHash) : ByteString := h.bytes

def serializeProposal (round : ConsensusRound) (validator : ValidatorId) : ByteString :=
  serializeConsensusRound round ++ serializeValidatorId validator

/-- The hash of a vote: 32 zero bytes for nil. -/
def serializeVoteHash : Option BlockHash → ByteString
  | some h => serializeBlockHash h
  | none => List.replicate 32 0

def serializePrevote (mHash : Option BlockHash) (round : ConsensusRound) : ByteString :=
  serializeVoteHash mHash ++ serializeConsensusRound round

def serializePrecommit (mHash : Option BlockHash) (round : ConsensusRound) : ByteString :=
  serializePrevote mHash round

/-! ### Messages and their meaning -/

inductive SignedMessage where
  | proposal (p : ProposalMsg)
  | prevote (p : PrevoteMsg)
  | precommit (p : PrecommitMsg)
  deriving DecidableEq

inductive MessageKind where
  | proposal
  | prevote
  | precommit
  deriving DecidableEq

namespace SignedMessage

def kind : SignedMessage → MessageKind
  | proposal _ => .proposal
  | prevote _ => .prevote
  | precommit _ => .precommit

def round : SignedMessage → ConsensusRound
  | proposal p => p.pmRound
  | prevote p => p.prRound
  | precommit p => p.pcRound

def block : SignedMessage → Option BlockHash
  | proposal p => some p.pmBlockHash
  | prevote p => p.prBlockHash
  | precommit p => p.pcBlockHash

def payload : SignedMessage → ByteString
  | proposal p => serializeProposal p.pmRound p.pmProposer
  | prevote p => serializePrevote p.prBlockHash p.prRound
  | precommit p => serializePrecommit p.pcBlockHash p.pcRound

/-- Block hashes hold 32 bytes and proposers' addresses 20. -/
def Sized : SignedMessage → Prop
  | proposal p => p.pmBlockHash.bytes.length = 32 ∧ p.pmProposer.address.bytes.length = 20
  | prevote p => ∀ h ∈ p.prBlockHash, h.bytes.length = 32
  | precommit p => ∀ h ∈ p.pcBlockHash, h.bytes.length = 32

/-- The two messages are of one kind, for one round and for one block. -/
def SameMeaning (m₁ m₂ : SignedMessage) : Prop :=
  m₁.kind = m₂.kind ∧ m₁.round = m₂.round ∧ m₁.block = m₂.block

/-- A block hash of zero bytes, which is written like nil. -/
def zeroBlock : BlockHash := ⟨List.replicate 32 0⟩

/-- Two votes read alike: equal blocks, or nil and the zero hash. -/
def AlikeBlocks (b₁ b₂ : Option BlockHash) : Prop :=
  b₁ = b₂ ∨ (b₁ = none ∧ b₂ = some zeroBlock) ∨ (b₁ = some zeroBlock ∧ b₂ = none)

instance (b₁ b₂ : Option BlockHash) : Decidable (AlikeBlocks b₁ b₂) :=
  inferInstanceAs (Decidable (_ ∨ _))

/-- The pairs of different messages with one payload. -/
def Confusable : SignedMessage → SignedMessage → Prop
  | proposal p, proposal q =>
      p.pmRound = q.pmRound ∧ p.pmProposer = q.pmProposer ∧ p.pmBlockHash ≠ q.pmBlockHash
  | prevote p, prevote q =>
      p.prRound = q.prRound ∧ AlikeBlocks p.prBlockHash q.prBlockHash ∧
        p.prBlockHash ≠ q.prBlockHash
  | precommit p, precommit q =>
      p.pcRound = q.pcRound ∧ AlikeBlocks p.pcBlockHash q.pcBlockHash ∧
        p.pcBlockHash ≠ q.pcBlockHash
  | prevote p, precommit q => p.prRound = q.pcRound ∧ AlikeBlocks p.prBlockHash q.pcBlockHash
  | precommit p, prevote q => p.pcRound = q.prRound ∧ AlikeBlocks p.pcBlockHash q.prBlockHash
  | _, _ => False

end SignedMessage

/-! ### Reading payloads back -/

theorem serializeConsensusRound_eq (round : ConsensusRound) :
    serializeConsensusRound round = Words.beBytes 8 round.unConsensusRound.toNat :=
  Words.shifts_eq_beBytes round.unConsensusRound

theorem serializeConsensusRound_inj {r₁ r₂ : ConsensusRound}
    (h : serializeConsensusRound r₁ = serializeConsensusRound r₂) : r₁ = r₂ := by
  rw [serializeConsensusRound_eq, serializeConsensusRound_eq] at h
  have hw := Words.beBytes_inj (UInt64.toNat_lt _) (UInt64.toNat_lt _) h
  exact congrArg ConsensusRound.mk (UInt64.toNat_inj.mp hw)

theorem length_serializeConsensusRound (round : ConsensusRound) :
    (serializeConsensusRound round).length = 8 := rfl

/-- The three encoders of 64-bit words, by division and by shifts, write the same eight
bytes, and the word is the big-endian number that these bytes denote. -/
theorem word64_encoders_agree (w : UInt64) :
    Protocol.Crypto.serializeWord64 w = Protocol.serializeWord64 w ∧
      serializeConsensusRound ⟨w⟩ = Protocol.serializeWord64 w ∧
      (Protocol.serializeWord64 w).length = 8 ∧
      Words.ofBeBytes (Protocol.serializeWord64 w) = w.toNat := by
  have hread : Words.ofBeBytes (Words.beBytes 8 w.toNat) = w.toNat := by
    rw [Words.ofBeBytes_beBytes]
    exact Nat.mod_eq_of_lt w.toNat_lt
  rw [Protocol.Crypto.serializeWord64_eq, serializeConsensusRound_eq,
    Protocol.serializeWord64_eq]
  exact ⟨rfl, rfl, Words.length_beBytes 8 w.toNat, hread⟩

theorem length_serializeVoteHash {b : Option BlockHash} (h : ∀ x ∈ b, x.bytes.length = 32) :
    (serializeVoteHash b).length = 32 := by
  cases b with
  | none => rfl
  | some x => exact h x rfl

open SignedMessage in
theorem serializeVoteHash_eq_iff (b₁ b₂ : Option BlockHash) :
    serializeVoteHash b₁ = serializeVoteHash b₂ ↔ AlikeBlocks b₁ b₂ := by
  have hbytes : ∀ x : BlockHash, x.bytes = List.replicate 32 0 ↔ x = zeroBlock := by
    intro x
    obtain ⟨bytes⟩ := x
    simp [zeroBlock]
  have heq : ∀ x y : BlockHash, x.bytes = y.bytes ↔ x = y := by
    intro x y
    obtain ⟨xs⟩ := x
    obtain ⟨ys⟩ := y
    simp
  cases b₁ with
  | none =>
      cases b₂ with
      | none => simp [AlikeBlocks]
      | some y =>
          rw [serializeVoteHash, serializeVoteHash, serializeBlockHash, eq_comm, hbytes]
          simp [AlikeBlocks]
  | some x =>
      cases b₂ with
      | none =>
          rw [serializeVoteHash, serializeVoteHash, serializeBlockHash, hbytes]
          simp [AlikeBlocks]
      | some y => simp [AlikeBlocks, serializeVoteHash, serializeBlockHash, heq]

open SignedMessage in
/-- Two votes have one payload exactly when their rounds are equal and their
blocks are alike. -/
theorem serializePrevote_eq_iff {b₁ b₂ : Option BlockHash} {r₁ r₂ : ConsensusRound}
    (h₁ : ∀ x ∈ b₁, x.bytes.length = 32) (h₂ : ∀ x ∈ b₂, x.bytes.length = 32) :
    serializePrevote b₁ r₁ = serializePrevote b₂ r₂ ↔ r₁ = r₂ ∧ AlikeBlocks b₁ b₂ := by
  constructor
  · intro h
    obtain ⟨hhash, hround⟩ := List.append_inj h
      ((length_serializeVoteHash h₁).trans (length_serializeVoteHash h₂).symm)
    exact ⟨serializeConsensusRound_inj hround, (serializeVoteHash_eq_iff b₁ b₂).mp hhash⟩
  · rintro ⟨rfl, halike⟩
    rw [serializePrevote, serializePrevote, (serializeVoteHash_eq_iff b₁ b₂).mpr halike]

theorem serializeProposal_eq_iff {r₁ r₂ : ConsensusRound} {v₁ v₂ : ValidatorId} :
    serializeProposal r₁ v₁ = serializeProposal r₂ v₂ ↔ r₁ = r₂ ∧ v₁ = v₂ := by
  constructor
  · intro h
    obtain ⟨hround, hproposer⟩ := List.append_inj h
      ((length_serializeConsensusRound r₁).trans (length_serializeConsensusRound r₂).symm)
    obtain ⟨⟨a₁⟩⟩ := v₁
    obtain ⟨⟨a₂⟩⟩ := v₂
    have ha : a₁ = a₂ := hproposer
    exact ⟨serializeConsensusRound_inj hround, by rw [ha]⟩
  · rintro ⟨rfl, rfl⟩
    rfl

theorem serializeProposal_ne_serializePrevote (r r' : ConsensusRound) {v : ValidatorId}
    {b : Option BlockHash} (hv : v.address.bytes.length = 20)
    (hb : ∀ x ∈ b, x.bytes.length = 32) : serializeProposal r v ≠ serializePrevote b r' := by
  intro h
  have hlen := congrArg List.length h
  rw [serializeProposal, serializePrevote, List.length_append, List.length_append,
    length_serializeVoteHash hb, length_serializeConsensusRound, length_serializeConsensusRound,
    serializeValidatorId, hv] at hlen
  omega

/-! ### Exactly which payloads are ambiguous -/

/-- For messages with hashes of 32 and addresses of 20 bytes, an equal payload
means an equal kind, round and block if and only if the pair is not confusable. -/
theorem payload_unambiguous_iff {m₁ m₂ : SignedMessage} (h₁ : m₁.Sized) (h₂ : m₂.Sized) :
    (m₁.payload = m₂.payload → m₁.SameMeaning m₂) ↔ ¬ m₁.Confusable m₂ := by
  cases m₁ with
  | proposal p =>
      cases m₂ with
      | proposal q =>
          simp only [SignedMessage.payload, serializeProposal_eq_iff, SignedMessage.SameMeaning,
            SignedMessage.kind, SignedMessage.round, SignedMessage.block,
            SignedMessage.Confusable, Option.some.injEq]
          tauto
      | prevote q =>
          have hne := serializeProposal_ne_serializePrevote p.pmRound q.prRound h₁.2 h₂
          exact ⟨fun _ hc => hc, fun _ heq => absurd heq hne⟩
      | precommit q =>
          have hne := serializeProposal_ne_serializePrevote p.pmRound q.pcRound h₁.2 h₂
          exact ⟨fun _ hc => hc, fun _ heq => absurd heq hne⟩
  | prevote p =>
      cases m₂ with
      | proposal q =>
          have hne := serializeProposal_ne_serializePrevote q.pmRound p.prRound h₂.2 h₁
          exact ⟨fun _ hc => hc, fun _ heq => absurd heq.symm hne⟩
      | prevote q =>
          simp only [SignedMessage.payload, serializePrevote_eq_iff h₁ h₂,
            SignedMessage.SameMeaning, SignedMessage.kind, SignedMessage.round,
            SignedMessage.block, SignedMessage.Confusable]
          tauto
      | precommit q =>
          simp only [SignedMessage.payload, serializePrecommit, serializePrevote_eq_iff h₁ h₂,
            SignedMessage.SameMeaning, SignedMessage.kind, SignedMessage.Confusable,
            reduceCtorEq, false_and, imp_false]
  | precommit p =>
      cases m₂ with
      | proposal q =>
          have hne := serializeProposal_ne_serializePrevote q.pmRound p.pcRound h₂.2 h₁
          exact ⟨fun _ hc => hc, fun _ heq => absurd heq.symm hne⟩
      | prevote q =>
          simp only [SignedMessage.payload, serializePrecommit, serializePrevote_eq_iff h₁ h₂,
            SignedMessage.SameMeaning, SignedMessage.kind, SignedMessage.Confusable,
            reduceCtorEq, false_and, imp_false]
      | precommit q =>
          simp only [SignedMessage.payload, serializePrecommit, serializePrevote_eq_iff h₁ h₂,
            SignedMessage.SameMeaning, SignedMessage.kind, SignedMessage.round,
            SignedMessage.block, SignedMessage.Confusable]
          tauto

/-! ### A prevote presented as a precommit -/

def roundOnePrevote (b : BlockHash) : PrevoteMsg :=
  { prBlockHash := some b
    prRound := ⟨1⟩
    prSender := ⟨⟨List.replicate 20 0xAA⟩⟩
    prSignature := ⟨[]⟩ }

theorem sized_roundOnePrevote {bytes : ByteString} (h : bytes.length = 32) :
    (SignedMessage.prevote (roundOnePrevote ⟨bytes⟩)).Sized := by
  rintro b ⟨⟩
  exact h

def roundOnePrecommit (b : BlockHash) : PrecommitMsg :=
  { pcBlockHash := some b
    pcRound := ⟨1⟩
    pcSender := ⟨⟨List.replicate 20 0xAA⟩⟩
    pcSignature := ⟨[]⟩ }

/-- The prevotes for the blocks of bytes `1` and of bytes `2` are told apart. -/
theorem roundOnePrevote_unambiguous :
    (SignedMessage.prevote (roundOnePrevote ⟨List.replicate 32 1⟩)).Sized ∧
      (SignedMessage.prevote (roundOnePrevote ⟨List.replicate 32 2⟩)).Sized ∧
      ((SignedMessage.prevote (roundOnePrevote ⟨List.replicate 32 1⟩)).payload =
          (SignedMessage.prevote (roundOnePrevote ⟨List.replicate 32 2⟩)).payload →
        (SignedMessage.prevote (roundOnePrevote ⟨List.replicate 32 1⟩)).SameMeaning
          (.prevote (roundOnePrevote ⟨List.replicate 32 2⟩))) := by
  have hone := sized_roundOnePrevote (List.length_replicate (n := 32) (a := 1))
  have htwo := sized_roundOnePrevote (List.length_replicate (n := 32) (a := 2))
  refine ⟨hone, htwo, (payload_unambiguous_iff hone htwo).mpr ?_⟩
  rintro ⟨_, halike, _⟩
  revert halike
  decide

/-- The prevote and the precommit for the block of bytes `1` have one payload. -/
theorem roundOnePrevote_payload_eq :
    (SignedMessage.prevote (roundOnePrevote ⟨List.replicate 32 1⟩)).Sized ∧
      (SignedMessage.precommit (roundOnePrecommit ⟨List.replicate 32 1⟩)).Sized ∧
      (SignedMessage.prevote (roundOnePrevote ⟨List.replicate 32 1⟩)).payload =
        (SignedMessage.precommit (roundOnePrecommit ⟨List.replicate 32 1⟩)).payload ∧
      ¬ (SignedMessage.prevote (roundOnePrevote ⟨List.replicate 32 1⟩)).SameMeaning
        (.precommit (roundOnePrecommit ⟨List.replicate 32 1⟩)) := by
  refine ⟨sized_roundOnePrevote List.length_replicate, ?_, rfl, ?_⟩
  · rintro h ⟨⟩
    rfl
  · rintro ⟨hkind, _⟩
    cases hkind

end Consensus

end CryptoCoin
