import CryptoCoin.Consensus.Equivocation
import CryptoCoin.Protocol.Block

/-!
# The sizes of digests and signatures

Signing is three hashes of 32 bytes in front of each other, for private keys of every
length, so `sign` never returns `Nothing`. The branches of `signBlock` and `signMessage`
for that case are never taken: every header that is signed and every message that a run
of an engine broadcasts carries a signature of 64 bytes.
-/

namespace CryptoCoin

namespace Consensus

open Protocol (ByteString PrivateKey Signature BlockHeader signBlock serializeHeader)

def ConsensusMessage.signature : ConsensusMessage → Signature
  | .proposal p => p.pmSignature
  | .ownProposal p => p.pmSignature
  | .prevote p => p.prSignature
  | .precommit p => p.pcSignature
  | .commit c => c.cmSignature
  | .viewChange vc => vc.vcSig
  | .newView nv => nv.nvSig

theorem signMessage_eq (engine : ConsensusEngine) (data : ByteString) :
    signMessage engine data = ⟨Protocol.Crypto.ed25519Sign engine.cePrivKey.bytes data⟩ := by
  delta signMessage
  rw [Protocol.Crypto.sign_eq_some]

@[simp] theorem length_signMessage (engine : ConsensusEngine) (data : ByteString) :
    (signMessage engine data).bytes.length = 64 := by
  rw [signMessage_eq, Protocol.Crypto.length_ed25519Sign]

/-- Digests have 32 bytes and signatures 64, and signing a header or a message always
returns what `sign` returns. -/
theorem digest_and_signature_sizes :
    (∀ x : ByteString, (Protocol.Crypto.hash x).bytes.length = 32) ∧
      (∀ (privKey : PrivateKey) (data : ByteString),
        ∃ sig, Protocol.Crypto.sign privKey data = some sig ∧ sig.bytes.length = 64) ∧
      (∀ (privKey : PrivateKey) (header : BlockHeader),
        ∃ sig, Protocol.Crypto.sign privKey (serializeHeader header) = some sig ∧
          signBlock privKey header = .ok sig) ∧
      ∀ (engine : ConsensusEngine) (data : ByteString),
        Protocol.Crypto.sign engine.cePrivKey data = some (signMessage engine data) := by
  refine ⟨Protocol.Crypto.length_hash, ?_, ?_, ?_⟩
  · intro privKey data
    exact ⟨_, Protocol.Crypto.sign_eq_some privKey data,
      Protocol.Crypto.length_ed25519Sign privKey.bytes data⟩
  · intro privKey header
    exact ⟨_, Protocol.Crypto.sign_eq_some privKey _, Protocol.signBlock_eq_ok privKey header⟩
  · intro engine data
    rw [signMessage_eq, Protocol.Crypto.sign_eq_some]

/-! ### Runs -/

namespace Machine

theorem length_signature_of_effect {m : Machine} {i : Input} {msg : ConsensusMessage}
    (h : m.effect i = .broadcast msg) : msg.signature.bytes.length = 64 := by
  obtain ⟨answers, _, _, ⟨p, _, _, rfl⟩ | ⟨p, value, _, _, rfl⟩ | ⟨_, rfl⟩⟩ :=
    effect_eq_broadcast h
  · simp only [ConsensusMessage.signature, prevoteMsg, length_signMessage]
  · simp only [ConsensusMessage.signature, precommitMsg, length_signMessage]
  · simp only [ConsensusMessage.signature, ownProposal, length_signMessage]

theorem length_signature_of_mem_broadcasts {engine : ConsensusEngine}
    (hqueue : engine.ceMsgQueue = []) (inputs : List Input) {msg : ConsensusMessage}
    (hmsg : msg ∈ (Runs.run step (ofEngine engine) inputs).broadcasts) :
    msg.signature.bytes.length = 64 := by
  obtain ⟨x, _, heffect⟩ := (mem_broadcasts_run engine hqueue inputs msg).mp hmsg
  exact length_signature_of_effect heffect

end Machine

end Consensus

end CryptoCoin
