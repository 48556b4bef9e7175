import CryptoCoin.Protocol.Block

/-!
# Does the validator accept what the producer creates

`createBlock` signs with the private key of 64 bytes, `validateBlock` verifies
with the 20 bytes of the validator's address. The hash keeps 32 bytes out of
every block of 136, so the two computations read different parts of the same
header: the signature covers the bytes from position 40 on (slot, epoch,
timestamp and the first bytes of the address), the verification the bytes from
position 84 on (the body root). The created block is accepted exactly when these
two windows agree up to the padding.
-/

namespace CryptoCoin

namespace Protocol

open Crypto (absorb absorbAll sha3_256)

/-! ### Two hashes of one header -/

/-- The bytes of the padding that reach the state behind 16 bytes of input. -/
def paddingWindow : ByteString := List.replicate 16 0 ++ [0x06] ++ List.replicate 15 0

section Windows

-- a header cut at the positions 40, 72, 84 and 116
variable {a w b m c : ByteString} (ha : a.length = 40) (hw : w.length = 32)
  (hb : b.length = 12) (hm : m.length = 32) (hc : c.length = 44)

include ha hw hb hm hc

/-- Behind a key of 64 bytes the hash keeps the bytes from position 40 on. -/
theorem sha3_256_signed {r privKey : ByteString} (hr : r.length = 32)
    (hk : privKey.length = 64) :
    sha3_256 (r ++ privKey ++ (a ++ w ++ b ++ m ++ c) ++ List.replicate 32 0) =
      absorb (absorb r w) paddingWindow := by
  have hwindow : (Crypto.extended (a ++ w ++ b ++ m ++ c)).drop 40 =
      w ++ (b ++ m ++ c ++ List.replicate 32 0) := by
    simp only [Crypto.extended, List.append_assoc]
    exact List.drop_left' ha
  have hrest : (b ++ m ++ c ++ List.replicate 32 0).drop 104 = List.replicate 16 0 := by
    rw [List.drop_append, List.drop_of_length_le (by simp [hb, hm, hc])]
    simp [hb, hm, hc]
  have hpad : sha3_256 (List.replicate 16 0) = paddingWindow := by decide +kernel
  rw [Crypto.sha3_256_keyed hr (by rw [hk]; decide), hk,
    if_neg (by simp [ha, hw, hb, hm, hc]), hwindow, Crypto.sha3_256_append hw,
    if_neg (by simp [hb, hm, hc]), hrest, hpad, Crypto.absorb_assoc]

theorem sha3_256_verified {r pubKey : ByteString} (hr : r.length = 32)
    (hk : pubKey.length = 20) :
    sha3_256 (r ++ pubKey ++ (a ++ w ++ b ++ m ++ c) ++ List.replicate 32 0) = absorb r m := by
  have hwindow : (Crypto.extended (a ++ w ++ b ++ m ++ c)).drop 84 =
      m ++ (c ++ List.replicate 32 0) := by
    have hsplit : Crypto.extended (a ++ w ++ b ++ m ++ c) =
        (a ++ w ++ b) ++ (m ++ (c ++ List.replicate 32 0)) := by
      simp only [Crypto.extended, List.append_assoc]
    rw [hsplit]
    exact List.drop_left' (by simp [ha, hw, hb])
  rw [Crypto.sha3_256_keyed hr (by rw [hk]; decide), hk,
    if_neg (by simp [ha, hw, hb, hm, hc]), hwindow,
    Crypto.sha3_256_append_of_lt hm (by simp [hc])]

theorem verify_ed25519Sign_iff {privKey : ByteString} {pubKey : PublicKey}
    (hpriv : privKey.length = 64) (hpub : pubKey.bytes.length = 20) :
    Crypto.verify pubKey ⟨Crypto.ed25519Sign privKey (a ++ w ++ b ++ m ++ c)⟩
        (a ++ w ++ b ++ m ++ c) = true ↔
      m = absorb w paddingWindow := by
  have hr : (sha3_256 (privKey.take 32 ++ (a ++ w ++ b ++ m ++ c) ++
      List.replicate 32 0)).length = 32 := Crypto.length_sha3_256 _
  have hwindow : (absorb w paddingWindow).length = 32 := by
    rw [Crypto.length_absorb, hw]
    rfl
  simp only [Crypto.ed25519Sign, Crypto.take_sha3_512]
  rw [Crypto.verify_append_iff pubKey hr, sha3_256_signed ha hw hb hm hc hr hpriv,
    sha3_256_verified ha hw hb hm hc hr hpub, Crypto.absorb_assoc,
    Crypto.absorb_left_inj (hwindow.trans hr.symm) (hm.trans hr.symm), eq_comm]

end Windows

/-! ### The created header -/

/-- The bytes 40 to 71 of a header: all that its signature depends on. -/
def signedWindow (slot : SlotNumber) (epoch : EpochNumber) (timestamp : Timestamp)
    (validator : ValidatorId) : ByteString :=
  serializeWord64 slot.unSlotNumber ++ serializeWord64 epoch.unEpochNumber ++
    serializeTimestamp timestamp ++ validator.address.bytes.take 8

/-- For a header with hashes of 32 bytes and an address of 20 bytes, a signature
under a key of 64 bytes is accepted exactly when the body root is the signed
window up to the padding. -/
theorem verifyBlockSignature_signed_iff {header : BlockHeader} {privKey : ByteString}
    (hpriv : privKey.length = 64) (hparent : header.bhParentHash.bytes.length = 32)
    (haddr : header.bhValidator.address.bytes.length = 20)
    (hroot : header.bhMerkleRoot.unMerkleRoot.bytes.length = 32)
    (hstate : header.bhStateRoot.bytes.length = 32)
    (hsig : header.bhSignature = ⟨Crypto.ed25519Sign privKey (serializeHeader header)⟩) :
    verifyBlockSignature header = true ↔
      header.bhMerkleRoot.unMerkleRoot.bytes =
        absorb (signedWindow header.bhSlotNumber header.bhEpochNumber header.bhTimestamp
          header.bhValidator) paddingWindow := by
  have hbytes : serializeHeader header =
      (header.bhParentHash.bytes ++ serializeWord64 header.bhBlockNumber.unBlockNumber) ++
        signedWindow header.bhSlotNumber header.bhEpochNumber header.bhTimestamp
          header.bhValidator ++ header.bhValidator.address.bytes.drop 8 ++
        header.bhMerkleRoot.unMerkleRoot.bytes ++
        (header.bhStateRoot.bytes ++ (serializeWord64 header.bhNonce ++
          serializeWord32 header.bhVersion)) := by
    have haddress : header.bhValidator.address.bytes.take 8 ++
        header.bhValidator.address.bytes.drop 8 = header.bhValidator.address.bytes :=
      List.take_append_drop 8 _
    conv_lhs => rw [serializeHeader, serializeValidatorId, ← haddress]
    simp only [signedWindow, serializeHash, List.append_assoc]
  rw [verifyBlockSignature, hsig, BlockHeader.serializeForSigning, hbytes]
  apply verify_ed25519Sign_iff
  · simp [hparent]
  · simp [signedWindow, haddr]
  · simp [haddr]
  · exact hroot
  · simp [hstate]
  · exact hpriv
  · exact haddr

/-- The validator that belongs to a seed. -/
def validatorOfSeed (seed : ByteString) : ValidatorId :=
  ⟨Crypto.deriveAddress (Crypto.generateKeyPairFromSeed seed).2⟩

def unsignedHeader (timestamp : Timestamp) (parentHeader : BlockHeader) (slot : SlotNumber)
    (epoch : EpochNumber) (validator : ValidatorId) (body : BlockBody) (utxoSet : UTxOSet) :
    BlockHeader :=
  { bhParentHash := hashBlockHeader parentHeader
    bhBlockNumber := ⟨parentHeader.bhBlockNumber.unBlockNumber + 1⟩
    bhSlotNumber := slot
    bhEpochNumber := epoch
    bhTimestamp := timestamp
    bhValidator := validator
    bhMerkleRoot := bodyRoot Crypto.hash body
    bhStateRoot := computeStateRoot utxoSet
    bhNonce := 0
    bhVersion := 1
    bhSignature := ⟨[]⟩ }

section Created

variable (timestamp : Timestamp) (parentHeader : BlockHeader) (slot : SlotNumber)
  (epoch : EpochNumber) (seed : ByteString) (txs : List Transaction) (votes : List Vote)
  (utxoSet : UTxOSet)

def createdBlock : Block :=
  let header := unsignedHeader timestamp parentHeader slot epoch (validatorOfSeed seed)
    ⟨txs, votes⟩ utxoSet
  let privKey := (Crypto.generateKeyPairFromSeed seed).1
  ⟨{ header with bhSignature := ⟨Crypto.ed25519Sign privKey.bytes (serializeHeader header)⟩ },
    ⟨txs, votes⟩⟩

theorem createBlock_eq_ok_iff {block : Block} :
    createBlock timestamp parentHeader slot epoch (validatorOfSeed seed)
        (Crypto.generateKeyPairFromSeed seed).1 txs votes utxoSet = .ok block ↔
      parentHeader.bhBlockNumber.unBlockNumber ≠ maxWord64 ∧
        block = createdBlock timestamp parentHeader slot epoch seed txs votes utxoSet := by
  simp only [createBlock, bind_eq_ok_iff, BlockNumber.succ_eq_ok_iff,
    signBlock_eq_ok, Except.ok.injEq]
  constructor
  · rintro ⟨number, ⟨hnumber, rfl⟩, signature, rfl, rfl⟩
    exact ⟨hnumber, rfl⟩
  · rintro ⟨hnumber, rfl⟩
    exact ⟨_, ⟨hnumber, rfl⟩, _, rfl, rfl⟩

theorem verifyBlockSignature_createdBlock_iff {seed : ByteString} (hseed : seed.length = 32) :
    verifyBlockSignature
        (createdBlock timestamp parentHeader slot epoch seed txs votes utxoSet).bHeader = true ↔
      (bodyRoot Crypto.hash ⟨txs, votes⟩).unMerkleRoot.bytes =
        absorb (signedWindow slot epoch timestamp (validatorOfSeed seed)) paddingWindow := by
  have hpriv : (Crypto.generateKeyPairFromSeed seed).1.bytes.length = 64 := by
    change (seed ++ (Crypto.sha3_512 seed).take 32).length = 64
    rw [List.length_append, hseed, Crypto.take_sha3_512, Crypto.length_sha3_256]
  exact verifyBlockSignature_signed_iff hpriv (Crypto.length_hash _)
    (Crypto.length_deriveAddress _) (Crypto.length_hash _)
    (Merkle.length_computeRoot _ Crypto.length_hash _) rfl

/-- On a chain whose tip is the parent, and for a body that passes its checks, the
producer returns an accepted block if and only if the parent's number is not the
last one and the body root happens to be the window that was signed. -/
theorem createBlock_accepted_iff {chainState : ChainState} {params : ProtocolParams}
    (hseed : seed.length = 32) (htip : chainState.csTipHash = hashBlockHeader parentHeader)
    (hnumber : chainState.csTipNumber = parentHeader.bhBlockNumber)
    (hsize : validateBlockSize ⟨txs, votes⟩ params = .ok ())
    (hbody : ∀ header, validateBlockBody chainState ⟨txs, votes⟩ header = .ok ⟨txs, votes⟩) :
    (∃ block, createBlock timestamp parentHeader slot epoch (validatorOfSeed seed)
        (Crypto.generateKeyPairFromSeed seed).1 txs votes utxoSet = .ok block ∧
        validateBlock chainState block params = .ok block) ↔
      parentHeader.bhBlockNumber.unBlockNumber ≠ maxWord64 ∧
        (bodyRoot Crypto.hash ⟨txs, votes⟩).unMerkleRoot.bytes =
          absorb (signedWindow slot epoch timestamp (validatorOfSeed seed)) paddingWindow := by
  rw [← verifyBlockSignature_createdBlock_iff timestamp parentHeader slot epoch txs votes
    utxoSet hseed]
  simp only [createBlock_eq_ok_iff]
  constructor
  · rintro ⟨block, ⟨hmax, rfl⟩, haccept⟩
    obtain ⟨_, _, hheader, _, _⟩ := validateBlock_eq_ok_iff.mp haccept
    exact ⟨hmax, (validateBlockHeader_eq_ok_iff.mp hheader).2.2.2.2.1⟩
  · rintro ⟨hmax, hsig⟩
    refine ⟨_, ⟨hmax, rfl⟩, validateBlock_eq_ok_iff.mpr ⟨rfl, ?_, ?_, ?_, rfl⟩⟩
    · have hle := (rejectIf_eq_ok_iff (e := _)).mp hsize
      exact UInt32.not_lt.mp hle
    · refine validateBlockHeader_eq_ok_iff.mpr ⟨rfl, htip.symm, ?_, ?_, hsig, rfl⟩
      · rw [hnumber]
        exact hmax
      · rw [hnumber]
        rfl
    · exact hbody _

end Created

/-! ### The first block after genesis -/

def genesisHeader : BlockHeader :=
  { bhParentHash := ⟨List.replicate 32 0⟩
    bhBlockNumber := ⟨0⟩
    bhSlotNumber := ⟨0⟩
    bhEpochNumber := ⟨0⟩
    bhTimestamp := ⟨0⟩
    bhValidator := ⟨⟨[]⟩⟩
    bhMerkleRoot := ⟨⟨List.replicate 32 0⟩⟩
    bhStateRoot := ⟨List.replicate 32 0⟩
    bhNonce := 0
    bhVersion := 1
    bhSignature := ⟨[]⟩ }

def genesisChain : ChainState :=
  { csUtxoSet := ⟨AscMap.empty⟩
    csConsensus := ⟨⟨[]⟩⟩
    csTipHash := hashBlockHeader genesisHeader
    csTipNumber := ⟨0⟩ }

def zeroSeed : ByteString := List.replicate 32 0

set_option maxRecDepth 20000 in
/-- An empty block at the one second at which the windows agree. -/
theorem createBlock_accepted_zeroSeed :
    ∃ block, createBlock ⟨432345564227567616 * 10 ^ 12⟩ genesisHeader ⟨0⟩ ⟨0⟩
        (validatorOfSeed zeroSeed) (Crypto.generateKeyPairFromSeed zeroSeed).1 [] []
        ⟨AscMap.empty⟩ = .ok block ∧
      validateBlock genesisChain block ⟨1000000⟩ = .ok block :=
  (createBlock_accepted_iff ⟨432345564227567616 * 10 ^ 12⟩ genesisHeader ⟨0⟩ ⟨0⟩ zeroSeed [] []
    ⟨AscMap.empty⟩ (by decide) rfl rfl rfl fun _ => rfl).mpr
    ⟨by decide, by decide⟩

set_option maxRecDepth 20000 in
/-- An empty block in November 2023, in slot 1: every condition on the inputs
holds and the created block is not accepted. -/
theorem createBlock_rejected_zeroSeed :
    zeroSeed.length = 32 ∧ genesisChain.csTipHash = hashBlockHeader genesisHeader ∧
      genesisChain.csTipNumber = genesisHeader.bhBlockNumber ∧
      validateBlockSize ⟨[], []⟩ ⟨1000000⟩ = .ok () ∧
      (∀ header, validateBlockBody genesisChain ⟨[], []⟩ header = .ok ⟨[], []⟩) ∧
      ∃ block, createBlock ⟨1700000000 * 10 ^ 12⟩ genesisHeader ⟨1⟩ ⟨0⟩
          (validatorOfSeed zeroSeed) (Crypto.generateKeyPairFromSeed zeroSeed).1 [] []
          ⟨AscMap.empty⟩ = .ok block ∧
        validateBlock genesisChain block ⟨1000000⟩ ≠ .ok block := by
  refine ⟨by decide, rfl, rfl, rfl, fun _ => rfl, _,
    (createBlock_eq_ok_iff ..).mpr ⟨by decide, rfl⟩, ?_⟩
  intro haccept
  obtain ⟨_, _, hheader, _, _⟩ := validateBlock_eq_ok_iff.mp haccept
  have hsig := (validateBlockHeader_eq_ok_iff.mp hheader).2.2.2.2.1
  rw [verifyBlockSignature_createdBlock_iff _ _ _ _ _ _ _ (by decide)] at hsig
  revert hsig
  decide

end Protocol

end CryptoCoin
