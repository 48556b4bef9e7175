import CryptoCoin.Consensus.SignatureSizes
import CryptoCoin.Protocol.Disclosure

/-!
# What the messages of an engine disclose

An engine signs its proposals and votes with one private key, over bytes that can be read
off the message. When the key comes from a seed of 32 bytes, each of these signatures shows
it, in every run and in whatever round it is made (`broadcasts_disclose`). The signature of
the engine's own proposal stands in a record that nobody can read, so it is the votes that
give the key away.
-/

namespace CryptoCoin

namespace Consensus

open Protocol (ByteString PrivateKey Timestamp ValidatorId)
open Protocol.Crypto (unmask extended generateKeyPairFromSeed)

def ConsensusMessage.signedBytes : ConsensusMessage → ByteString
  | .proposal p => (SignedMessage.proposal p).payload
  | .ownProposal p => serializeProposal p.pmRound p.pmProposer
  | .prevote p => (SignedMessage.prevote p).payload
  | .precommit p => (SignedMessage.precommit p).payload
  | .commit _ | .viewChange _ | .newView _ => []

/-- The private key behind the signature of a message. -/
def ConsensusMessage.signingKey (msg : ConsensusMessage) : PrivateKey :=
  (generateKeyPairFromSeed
    (unmask (extended msg.signedBytes) (msg.signature.bytes.take 32))).1

/-! ### The key of an engine -/

theorem cePrivKey_perform {answers : Answers} {engine engine' : ConsensusEngine} {task : Task}
    {tasks : List Task} (h : perform answers engine task = some (engine', tasks)) :
    engine'.cePrivKey = engine.cePrivKey := by
  cases task with
  | runConsensusRound =>
      rcases runConsensusRound_cases h with ⟨_, hresult⟩ | ⟨_, hresult⟩
      · cases hresult
        rfl
      · cases hresult
        rfl
  | applyConsensusMessage msg =>
      cases msg with
      | proposal p =>
          obtain ⟨rfl, rfl⟩ := eq_of_perform_proposal h
          simp only [handleProposal]
          split
          · rfl
          · rfl
      | ownProposal p => cases h
      | prevote p =>
          cases h
          simp only [handlePrevote]
          split
          · rfl
          · split
            · rfl
            · rfl
      | precommit p =>
          cases h
          simp only [handlePrecommit]
          split
          · split
            · rfl
            · rfl
          · rfl
      | commit c =>
          cases h
          simp only [handleCommit]
          split
          · rfl
          · rfl
      | viewChange vc =>
          have hview : (handleViewChange (fun _ _ => answers.viewChanges) engine vc).1 = engine' :=
            congrArg Prod.fst (Option.some.inj h)
          rw [← hview]
          simp only [handleViewChange]
          split
          · rfl
          · rfl
      | newView nv =>
          cases h
          rfl

namespace Machine

theorem cePrivKey_step (m : Machine) (i : Input) :
    (m.step i).engine.cePrivKey = m.engine.cePrivKey := by
  cases i with
  | resume answers =>
      simp only [step, resume]
      split
      · rfl
      · split
        · rfl
        · next hperform => exact cePrivKey_perform hperform
  | _ =>
      simp only [step]
      split
      · rfl
      · rfl

theorem cePrivKey_run (m : Machine) (inputs : List Input) :
    (Runs.run step m inputs).engine.cePrivKey = m.engine.cePrivKey := by
  apply Runs.invariant (P := fun m' : Machine => m'.engine.cePrivKey = m.engine.cePrivKey) rfl
  intro x _ h
  rw [cePrivKey_step, h]

/-! ### Broadcasts -/

theorem signature_of_effect {m : Machine} {i : Input} {msg : ConsensusMessage}
    (h : m.effect i = .broadcast msg) :
    msg.signature = signMessage m.engine msg.signedBytes := by
  obtain ⟨answers, _, _, ⟨p, _, _, rfl⟩ | ⟨p, value, _, _, rfl⟩ | ⟨_, rfl⟩⟩ :=
    effect_eq_broadcast h
  · simp only [ConsensusMessage.signature, ConsensusMessage.signedBytes, SignedMessage.payload,
      prevoteMsg]
  · simp only [ConsensusMessage.signature, ConsensusMessage.signedBytes, SignedMessage.payload,
      precommitMsg]
  · simp only [ConsensusMessage.signature, ConsensusMessage.signedBytes, ownProposal]

end Machine

/-- Whatever an engine receives: every message that it broadcasts shows its private key. -/
theorem broadcasts_disclose {seed : ByteString} (hseed : seed.length = 32) (now : Timestamp)
    (config : ConsensusConfig) (validator : ValidatorId) (vset : ValidatorSet)
    (inputs : List Input) :
    ∀ msg ∈ (Runs.run Machine.step (.ofEngine (newConsensusEngine now config
        (generateKeyPairFromSeed seed).1 validator vset)) inputs).broadcasts,
      msg.signingKey = (generateKeyPairFromSeed seed).1 := by
  intro msg hmsg
  obtain ⟨x, hx, heffect⟩ := (Machine.mem_broadcasts_run _ rfl inputs msg).mp hmsg
  obtain ⟨pre, _, _, hstate⟩ := Runs.mem_trace_iff.mp hx
  have hkey : x.1.engine.cePrivKey = (generateKeyPairFromSeed seed).1 := by
    rw [hstate, Machine.cePrivKey_run]
    rfl
  rw [ConsensusMessage.signingKey, Machine.signature_of_effect heffect, signMessage_eq, hkey,
    Protocol.Crypto.unmask_ed25519Sign hseed]

namespace FourValidators

def seededEngine : ConsensusEngine :=
  newConsensusEngine ⟨0⟩ ⟨1000⟩ (generateKeyPairFromSeed (Protocol.Crypto.seedOf 7)).1
    (validator 1) vset

/-- The second validator prevotes a proposal of the first, and precommits after three prevotes
for its block. -/
def firstVotes : List Input :=
  [.applyConsensusMessage (.proposal (proposalOf (block 1))), .resume silence,
    .applyConsensusMessage (.prevote (prevote 0 none)),
    .resume { silence with prevotes := prevotesOn (block 1) }]

end FourValidators

open FourValidators in
theorem broadcasts_disclose_firstVotes :
    (Protocol.Crypto.seedOf 7).length = 32 ∧
      (Runs.run Machine.step (.ofEngine seededEngine) firstVotes).broadcasts =
        [.precommit (precommitMsg seededEngine (some (block 1))),
          .prevote (prevoteMsg seededEngine (some (block 1)))] ∧
      ∀ msg ∈ (Runs.run Machine.step (.ofEngine seededEngine) firstVotes).broadcasts,
        msg.signingKey = (generateKeyPairFromSeed (Protocol.Crypto.seedOf 7)).1 :=
  have hseed : (Protocol.Crypto.seedOf 7).length = 32 := rfl
  ⟨hseed, by decide +kernel, broadcasts_disclose hseed ⟨0⟩ ⟨1000⟩ (validator 1) vset firstVotes⟩

end Consensus

end CryptoCoin
