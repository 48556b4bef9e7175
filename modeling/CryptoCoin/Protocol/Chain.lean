import CryptoCoin.Protocol.Disclosure
import CryptoCoin.Protocol.HeaderBytes
import CryptoCoin.Protocol.StateRoot

/-!
# The genesis block and the blocks behind it

A header with a full address has 160 bytes. Its hash keeps the parent hash and the bytes
from position 136 on, which are the end of the state root, the nonce and the version
(`hashBlockHeader_eq`). Along a chain of created blocks the hashes therefore only collect
the ends of the state roots, by exclusive or. The hash of the tip does not depend on the
order of the blocks, and two blocks with the same state root cancel (`tip_hash_eq_iff`).

The header of the genesis block has no address and 140 bytes. Its signature covers the time,
its verification the state root (`createGenesisBlock_verifies_iff`).
-/

namespace CryptoCoin

namespace Protocol

open Crypto (absorb sha3_256)

/-! ### The hash of a header -/

/-- The bytes behind position 136 of a header with a full address, up to the padding. -/
def hashedWindow (h : BlockHeader) : ByteString :=
  h.bhStateRoot.bytes.drop 20 ++
    (serializeWord64 h.bhNonce ++ serializeWord32 h.bhVersion ++ [6, 0, 0, 0, 0, 0, 0, 0])

theorem length_hashedWindow {h : BlockHeader} (hsized : h.Sized) :
    (hashedWindow h).length = 32 := by
  simp [hashedWindow, hsized.bhStateRoot]

theorem hash_eq_iff {h h' : Hash} : h = h' ↔ h.bytes = h'.bytes := by
  rw [← Hash.mk.injEq]

theorem sha3_256_of_length_eq {x : ByteString} (hx : x.length = 24) :
    sha3_256 x = x ++ [6, 0, 0, 0, 0, 0, 0, 0] := by
  have hpadding : x ++ Crypto.padding x.length =
      (x ++ [6, 0, 0, 0, 0, 0, 0, 0]) ++ (List.replicate 103 0 ++ [0x80]) := by
    rw [hx, List.append_assoc]
    rfl
  rw [Crypto.sha3_256_eq_absorbAll, Crypto.absorbAll_of_length_le _ (by omega), hpadding,
    Crypto.absorb_append (by simp [hx]), Crypto.absorb_zero (by simp [hx])]

/-- Number, slot, epoch, time, validator and body root have no part in the hash. -/
theorem hashBlockHeader_eq {h : BlockHeader} (hsized : h.Sized) :
    (hashBlockHeader h).bytes = absorb h.bhParentHash.bytes (hashedWindow h) := by
  have hsplit : serializeHeader h = h.bhParentHash.bytes ++
      ((serializeWord64 h.bhBlockNumber.unBlockNumber ++
        serializeWord64 h.bhSlotNumber.unSlotNumber ++
        serializeWord64 h.bhEpochNumber.unEpochNumber ++ serializeTimestamp h.bhTimestamp ++
        h.bhValidator.address.bytes ++ h.bhMerkleRoot.unMerkleRoot.bytes ++
        h.bhStateRoot.bytes.take 20) ++
      (h.bhStateRoot.bytes.drop 20 ++
        (serializeWord64 h.bhNonce ++ serializeWord32 h.bhVersion))) := by
    have hroot : h.bhStateRoot.bytes.take 20 ++ h.bhStateRoot.bytes.drop 20 =
        h.bhStateRoot.bytes := List.take_append_drop 20 _
    conv_lhs => rw [serializeHeader, serializeHash, serializeHash, serializeHash, ← hroot]
    simp only [serializeValidatorId, List.append_assoc]
  change sha3_256 (serializeHeader h) = _
  rw [hsplit, Crypto.sha3_256_append hsized.bhParentHash, if_neg (by
      simp [hsized.bhValidator, hsized.bhMerkleRoot, hsized.bhStateRoot]),
    List.drop_left' (by simp [hsized.bhValidator, hsized.bhMerkleRoot, hsized.bhStateRoot]),
    sha3_256_of_length_eq (by simp [hsized.bhStateRoot]), hashedWindow]
  simp only [List.append_assoc]

/-- Two headers on one parent have the same hash exactly when their state roots end alike
and nonce and version agree. -/
theorem hashBlockHeader_eq_iff_of_parent {h h' : BlockHeader} (hsized : h.Sized)
    (hsized' : h'.Sized) (hparent : h.bhParentHash = h'.bhParentHash) :
    hashBlockHeader h = hashBlockHeader h' ↔
      h.bhStateRoot.bytes.drop 20 = h'.bhStateRoot.bytes.drop 20 ∧
        h.bhNonce = h'.bhNonce ∧ h.bhVersion = h'.bhVersion := by
  rw [hash_eq_iff, hashBlockHeader_eq hsized, hashBlockHeader_eq hsized', ← hparent,
    Crypto.absorb_left_inj
      ((length_hashedWindow hsized).trans hsized.bhParentHash.symm)
      ((length_hashedWindow hsized').trans hsized.bhParentHash.symm)]
  constructor
  · intro hwindow
    obtain ⟨hroot, hrest⟩ := List.append_inj hwindow
      (by simp [hsized.bhStateRoot, hsized'.bhStateRoot])
    have hfields := List.append_inj_left' hrest rfl
    obtain ⟨hnonce, hversion⟩ := List.append_inj hfields rfl
    exact ⟨hroot, serializeWord64_inj hnonce, serializeWord32_inj hversion⟩
  · rintro ⟨hroot, hnonce, hversion⟩
    rw [hashedWindow, hashedWindow, hroot, hnonce, hversion]

/-- Two blocks of one parent at different times. -/
theorem hashBlockHeader_headerAt :
    headerAt ⟨0⟩ ≠ headerAt ⟨10 ^ 12⟩ ∧
      hashBlockHeader (headerAt ⟨0⟩) = hashBlockHeader (headerAt ⟨10 ^ 12⟩) := by
  have hparent : (headerAt ⟨0⟩).bhParentHash = (headerAt ⟨10 ^ 12⟩).bhParentHash := rfl
  refine ⟨by simp [headerAt], ?_⟩
  exact (hashBlockHeader_eq_iff_of_parent (sized_headerAt _) (sized_headerAt _) hparent).mpr
    ⟨rfl, rfl, rfl⟩

/-! ### The genesis block -/

/-- `gcGenesisTime` of the configuration is an argument of its own. -/
def createGenesisBlock (timestamp gcGenesisTime : Timestamp) (genesisConfig : GenesisConfig)
    (privKey : PrivateKey) : Result ProtocolError Block := do
  let actualTime := if gcGenesisTime.picoseconds > 0 then gcGenesisTime else timestamp
  let zeroHash : Hash := ⟨List.replicate 32 0⟩
  let header : BlockHeader :=
    { bhParentHash := zeroHash
      bhBlockNumber := ⟨0⟩
      bhSlotNumber := ⟨0⟩
      bhEpochNumber := ⟨0⟩
      bhTimestamp := actualTime
      bhValidator := ⟨⟨[]⟩⟩
      bhMerkleRoot := ⟨zeroHash⟩
      bhStateRoot := computeGenesisStateRoot genesisConfig
      bhNonce := 0
      bhVersion := 1
      bhSignature := ⟨[]⟩ }
  let signature ← signBlock privKey header
  .ok ⟨{ header with bhSignature := signature }, ⟨[], []⟩⟩

section Unaddressed

-- a header without address, cut at the positions 40, 72, 104 and 136
variable {a w m v c : ByteString} (ha : a.length = 40) (hw : w.length = 32)
  (hm : m.length = 32) (hv : v.length = 32) (hc : c.length = 4)

include ha hw hm hv hc

/-- A key of 64 bytes leaves the bytes from position 40 on, no key those from position
104 on. -/
theorem verify_ed25519Sign_unaddressed_iff {privKey : ByteString} {pubKey : PublicKey}
    (hpriv : privKey.length = 64) (hpub : pubKey.bytes = []) :
    Crypto.verify pubKey ⟨Crypto.ed25519Sign privKey (a ++ w ++ m ++ v ++ c)⟩
        (a ++ w ++ m ++ v ++ c) = true ↔ w = v := by
  have hr : (sha3_256 (privKey.take 32 ++ (a ++ w ++ m ++ v ++ c) ++
      List.replicate 32 0)).length = 32 := Crypto.length_sha3_256 _
  have hsigned : (Crypto.extended (a ++ w ++ m ++ v ++ c)).drop 40 =
      w ++ (m ++ v ++ c ++ List.replicate 32 0) := by
    simp only [Crypto.extended, List.append_assoc]
    exact List.drop_left' ha
  have hverified : (Crypto.extended (a ++ w ++ m ++ v ++ c)).drop 104 =
      v ++ (c ++ List.replicate 32 0) := by
    have hsplit : Crypto.extended (a ++ w ++ m ++ v ++ c) =
        (a ++ w ++ m) ++ (v ++ (c ++ List.replicate 32 0)) := by
      simp only [Crypto.extended, List.append_assoc]
    rw [hsplit]
    exact List.drop_left' (by simp [ha, hw, hm])
  have hlen : (a ++ w ++ m ++ v ++ c).length = 140 := by simp [ha, hw, hm, hv, hc]
  simp only [Crypto.ed25519Sign, Crypto.take_sha3_512]
  rw [Crypto.verify_append_iff pubKey hr, Crypto.sha3_256_keyed hr (by rw [hpriv]; decide),
    Crypto.sha3_256_keyed hr (by rw [hpub]; decide), hpriv, hpub, hlen, if_neg (by decide),
    if_neg (by decide), hsigned, List.length_nil, hverified,
    Crypto.sha3_256_append_of_lt hw (by simp [hm, hv, hc]),
    Crypto.sha3_256_append_of_lt hv (by simp [hc]),
    Crypto.absorb_left_inj (hw.trans hr.symm) (hv.trans hr.symm)]

end Unaddressed

def unsignedGenesis (time : Timestamp) (root : Hash) : BlockHeader :=
  { genesisHeader with
    bhTimestamp := time
    bhStateRoot := root }

theorem serializeHeader_unsignedGenesis (time : Timestamp) (root : Hash) :
    serializeHeader (unsignedGenesis time root) =
      List.replicate 40 0 ++
        (List.replicate 16 0 ++ serializeTimestamp time ++ List.replicate 8 0) ++
        (List.replicate 24 0 ++ root.bytes.take 8) ++
        (root.bytes.drop 8 ++ List.replicate 8 0) ++ [0, 0, 0, 1] := by
  have hroot : root.bytes.take 8 ++ (root.bytes.drop 8 ++ [0, 0, 0, 0, 0, 0, 0, 0, 0, 0, 0, 1]) =
      root.bytes ++ [0, 0, 0, 0, 0, 0, 0, 0, 0, 0, 0, 1] := by
    rw [← List.append_assoc, List.take_append_drop]
  have hzero : serializeWord64 0 = List.replicate 8 0 := by decide
  have hversion : serializeWord32 1 = [0, 0, 0, 1] := by decide
  simp [serializeHeader, unsignedGenesis, genesisHeader, serializeHash, serializeValidatorId,
    hzero, hversion, hroot]

/-- The signature of the genesis block verifies, whatever key has made it, exactly when the
state root is zero behind its first 8 bytes up to the last 8, which are those of the time. -/
theorem createGenesisBlock_verifies_iff {timestamp gcGenesisTime : Timestamp}
    {genesisConfig : GenesisConfig} {privKey : PrivateKey} {block : Block}
    (hpriv : privKey.bytes.length = 64)
    (hcreate : createGenesisBlock timestamp gcGenesisTime genesisConfig privKey = .ok block) :
    verifyBlockSignature block.bHeader = true ↔
      (computeGenesisStateRoot genesisConfig).bytes.drop 8 =
        List.replicate 16 0 ++ serializeTimestamp
          (if gcGenesisTime.picoseconds > 0 then gcGenesisTime else timestamp) := by
  simp only [createGenesisBlock, bind_eq_ok_iff, signBlock_eq_ok, Except.ok.injEq] at hcreate
  obtain ⟨signature, rfl, rfl⟩ := hcreate
  have hroot : (computeGenesisStateRoot genesisConfig).bytes.length = 32 :=
    Merkle.length_computeRoot _ Crypto.length_hash _
  generalize computeGenesisStateRoot genesisConfig = root at hroot ⊢
  generalize (if gcGenesisTime.picoseconds > 0 then gcGenesisTime else timestamp) = time
  change Crypto.verify ⟨[]⟩
      ⟨Crypto.ed25519Sign privKey.bytes (serializeHeader (unsignedGenesis time root))⟩
      (serializeHeader (unsignedGenesis time root)) = true ↔ _
  rw [serializeHeader_unsignedGenesis, verify_ed25519Sign_unaddressed_iff (by simp) (by simp)
    (by simp [hroot]) (by simp [hroot]) rfl hpriv rfl, List.append_left_inj, eq_comm]

/-- A configuration without outputs at the second 0. -/
theorem createGenesisBlock_verifies_empty :
    ∃ block, createGenesisBlock ⟨0⟩ ⟨0⟩ ⟨[]⟩ (Crypto.generateKeyPairFromSeed (Crypto.seedOf 7)).1 =
        .ok block ∧
      verifyBlockSignature block.bHeader = true := by
  have hpriv : (Crypto.generateKeyPairFromSeed (Crypto.seedOf 7)).1.bytes.length = 64 := by
    rw [Crypto.privateKey_eq, List.length_append, Crypto.length_publicKey]
    rfl
  obtain ⟨block, hcreate⟩ : ∃ block, createGenesisBlock ⟨0⟩ ⟨0⟩ ⟨[]⟩
      (Crypto.generateKeyPairFromSeed (Crypto.seedOf 7)).1 = .ok block := by
    simp [createGenesisBlock, bind_eq_ok_iff, signBlock_eq_ok]
  exact ⟨block, hcreate, (createGenesisBlock_verifies_iff hpriv hcreate).mpr (by decide)⟩

/-! ### Chains of created blocks -/

structure Production where
  timestamp : Timestamp
  slot : SlotNumber
  epoch : EpochNumber
  validator : ValidatorId
  privKey : PrivateKey
  txs : List Transaction
  votes : List Vote
  utxoSet : UTxOSet

def Production.create (p : Production) (parentHeader : BlockHeader) : Result ProtocolError Block :=
  createBlock p.timestamp parentHeader p.slot p.epoch p.validator p.privKey p.txs p.votes p.utxoSet

def produce (parentHeader : BlockHeader) : List Production → Result ProtocolError (List Block)
  | [] => .ok []
  | p :: ps => do
      let block ← p.create parentHeader
      let blocks ← produce block.bHeader ps
      .ok (block :: blocks)

def tip (parentHeader : BlockHeader) : List Block → BlockHeader
  | [] => parentHeader
  | block :: blocks => tip block.bHeader blocks

def Production.block (p : Production) (parentHeader : BlockHeader) : Block :=
  let header := unsignedHeader p.timestamp parentHeader p.slot p.epoch p.validator
    ⟨p.txs, p.votes⟩ p.utxoSet
  ⟨{ header with
      bhSignature := ⟨Crypto.ed25519Sign p.privKey.bytes (serializeHeader header)⟩ },
    ⟨p.txs, p.votes⟩⟩

theorem create_eq_ok_iff {p : Production} {parentHeader : BlockHeader} {block : Block} :
    p.create parentHeader = .ok block ↔
      parentHeader.bhBlockNumber.unBlockNumber ≠ maxWord64 ∧ block = p.block parentHeader := by
  simp only [Production.create, createBlock, bind_eq_ok_iff, BlockNumber.succ_eq_ok_iff,
    signBlock_eq_ok, Except.ok.injEq]
  constructor
  · rintro ⟨number, ⟨hnumber, rfl⟩, signature, rfl, rfl⟩
    exact ⟨hnumber, rfl⟩
  · rintro ⟨hnumber, rfl⟩
    exact ⟨_, ⟨hnumber, rfl⟩, _, rfl, rfl⟩

theorem exists_produce_iff {parentHeader : BlockHeader} {ps : List Production} :
    (∃ blocks, produce parentHeader ps = .ok blocks) ↔
      parentHeader.bhBlockNumber.unBlockNumber.toNat + ps.length < 2 ^ 64 := by
  induction ps generalizing parentHeader with
  | nil =>
      have hlt : parentHeader.bhBlockNumber.unBlockNumber.toNat < 2 ^ 64 := UInt64.toNat_lt _
      simpa [produce] using hlt
  | cons p ps ih =>
      have hparent : parentHeader.bhBlockNumber.unBlockNumber.toNat < 2 ^ 64 := UInt64.toNat_lt _
      simp only [produce, bind_eq_ok_iff, Except.ok.injEq, List.length_cons]
      constructor
      · rintro ⟨_, block, hcreate, blocks, hblocks, rfl⟩
        obtain ⟨hmax, rfl⟩ := create_eq_ok_iff.mp hcreate
        have hrest := ih.mp ⟨blocks, hblocks⟩
        simp only [Production.block, unsignedHeader, toNat_add_one hmax] at hrest
        omega
      · intro hlt
        have hmax : parentHeader.bhBlockNumber.unBlockNumber ≠ maxWord64 := by
          intro heq
          rw [heq] at hlt
          change 2 ^ 64 - 1 + (ps.length + 1) < 2 ^ 64 at hlt
          omega
        have hcreate : p.create parentHeader = .ok (p.block parentHeader) :=
          create_eq_ok_iff.mpr ⟨hmax, rfl⟩
        have hnext : (p.block parentHeader).bHeader.bhBlockNumber.unBlockNumber.toNat + ps.length <
            2 ^ 64 := by
          simp only [Production.block, unsignedHeader, toNat_add_one hmax]
          omega
        obtain ⟨blocks, hblocks⟩ := ih.mpr hnext
        exact ⟨_, _, hcreate, blocks, hblocks, rfl⟩

/-! ### The hash of the tip -/

/-- The part of a state root that reaches the hash of a block. -/
def Production.rootTail (p : Production) : ByteString := (computeStateRoot p.utxoSet).bytes.drop 20

/-- The exclusive or of the ends of the state roots. -/
def mask (ps : List Production) : ByteString :=
  (ps.map Production.rootTail).foldr absorb (List.replicate 12 0)

/-- Nonce, version and padding, which are the same for every created block. -/
def constantWindow : ByteString :=
  List.replicate 8 0 ++ [0, 0, 0, 1] ++ [6, 0, 0, 0, 0, 0, 0, 0]

/-- What the constant bytes leave after a number of blocks. -/
def parity (n : ℕ) : ByteString :=
  if n % 2 = 0 then List.replicate 20 0 else constantWindow

theorem length_rootTail (p : Production) : p.rootTail.length = 12 := by
  have hroot : (computeStateRoot p.utxoSet).bytes.length = 32 :=
    Merkle.length_computeRoot _ Crypto.length_hash _
  rw [Production.rootTail, List.length_drop, hroot]

theorem length_mask (ps : List Production) : (mask ps).length = 12 := by
  induction ps with
  | nil => rfl
  | cons p ps ih =>
      change (absorb p.rootTail (mask ps)).length = 12
      rw [Crypto.length_absorb, length_rootTail, ih, Nat.min_self]

theorem length_parity (n : ℕ) : (parity n).length = 20 := by
  rw [parity]
  split <;> rfl

theorem absorb_constantWindow_parity (n : ℕ) :
    absorb constantWindow (parity n) = parity (n + 1) := by
  rcases Nat.mod_two_eq_zero_or_one n with hn | hn
  · rw [parity, parity, if_pos hn, if_neg (by omega)]
    decide
  · rw [parity, parity, if_neg (by omega), if_pos (by omega)]
    decide

theorem parity_eq_iff {n m : ℕ} : parity n = parity m ↔ n % 2 = m % 2 := by
  have hne : List.replicate 20 0 ≠ constantWindow := by decide
  rcases Nat.mod_two_eq_zero_or_one n with hn | hn <;>
    rcases Nat.mod_two_eq_zero_or_one m with hm | hm <;>
    simp only [parity, hn, hm, hne, hne.symm, one_ne_zero, zero_ne_one, ↓reduceIte]

theorem absorb_append_append {a b c d : ByteString} (h : a.length = c.length) :
    absorb (a ++ b) (c ++ d) = absorb a c ++ absorb b d :=
  List.zipWith_append h

theorem hash_create {p : Production} {parentHeader : BlockHeader} {block : Block}
    (haddress : p.validator.address.bytes.length = 20)
    (hcreate : p.create parentHeader = .ok block) :
    (hashBlockHeader block.bHeader).bytes =
      absorb (hashBlockHeader parentHeader).bytes (p.rootTail ++ constantWindow) := by
  obtain ⟨_, rfl⟩ := create_eq_ok_iff.mp hcreate
  rw [hashBlockHeader_eq ⟨Crypto.length_hash _, haddress, Crypto.length_hash _,
    Merkle.length_computeRoot _ Crypto.length_hash _⟩]
  have hconstant : serializeWord64 0 ++ serializeWord32 1 ++ [6, 0, 0, 0, 0, 0, 0, 0] =
      constantWindow := by decide
  rw [← hconstant]
  rfl

theorem hash_tip {parentHeader : BlockHeader} {ps : List Production} {blocks : List Block}
    (haddress : ∀ p ∈ ps, p.validator.address.bytes.length = 20)
    (hproduce : produce parentHeader ps = .ok blocks) :
    (hashBlockHeader (tip parentHeader blocks)).bytes =
      absorb (hashBlockHeader parentHeader).bytes (mask ps ++ parity ps.length) := by
  induction ps generalizing parentHeader blocks with
  | nil =>
      obtain rfl : [] = blocks := Except.ok.inj hproduce
      exact (Crypto.absorb_replicate_zero (n := 32) (Crypto.length_hash _).le).symm
  | cons p ps ih =>
      simp only [produce, bind_eq_ok_iff, Except.ok.injEq] at hproduce
      obtain ⟨block, hcreate, rest, hrest, rfl⟩ := hproduce
      obtain ⟨hp, hps⟩ := List.forall_mem_cons.mp haddress
      have hlen : p.rootTail.length = (mask ps).length := by rw [length_rootTail, length_mask]
      calc (hashBlockHeader (tip block.bHeader rest)).bytes
          = absorb (hashBlockHeader block.bHeader).bytes (mask ps ++ parity ps.length) :=
            ih hps hrest
        _ = absorb (hashBlockHeader parentHeader).bytes
              (absorb (p.rootTail ++ constantWindow) (mask ps ++ parity ps.length)) := by
            rw [hash_create hp hcreate, Crypto.absorb_assoc]
        _ = absorb (hashBlockHeader parentHeader).bytes
              (mask (p :: ps) ++ parity (ps.length + 1)) := by
            rw [absorb_append_append hlen, absorb_constantWindow_parity]
            rfl

/-- Two chains that are created on one parent have tips with the same hash exactly when
their lengths have the same parity and the exclusive or of the ends of their state roots
is the same. -/
theorem tip_hash_eq_iff {parentHeader : BlockHeader} {ps qs : List Production}
    {blocks blocks' : List Block}
    (hps : ∀ p ∈ ps, p.validator.address.bytes.length = 20)
    (hqs : ∀ q ∈ qs, q.validator.address.bytes.length = 20)
    (hblocks : produce parentHeader ps = .ok blocks)
    (hblocks' : produce parentHeader qs = .ok blocks') :
    hashBlockHeader (tip parentHeader blocks) = hashBlockHeader (tip parentHeader blocks') ↔
      ps.length % 2 = qs.length % 2 ∧ mask ps = mask qs := by
  have hlen : ∀ rs : List Production, (mask rs ++ parity rs.length).length =
      (hashBlockHeader parentHeader).bytes.length := by
    intro rs
    rw [List.length_append, length_mask, length_parity]
    exact (Crypto.length_hash _).symm
  rw [hash_eq_iff, hash_tip hps hblocks, hash_tip hqs hblocks',
    Crypto.absorb_left_inj (hlen ps) (hlen qs), ← parity_eq_iff, and_comm]
  constructor
  · intro hwindow
    exact List.append_inj hwindow (by rw [length_mask, length_mask])
  · rintro ⟨hmask, hparity⟩
    rw [hmask, hparity]

def emptyProduction (timestamp : Timestamp) : Production :=
  { timestamp := timestamp
    slot := ⟨1⟩
    epoch := ⟨0⟩
    validator := validatorOfSeed (Crypto.seedOf 7)
    privKey := (Crypto.generateKeyPairFromSeed (Crypto.seedOf 7)).1
    txs := []
    votes := []
    utxoSet := ⟨AscMap.empty⟩ }

/-- After two empty blocks on genesis the hash is that of genesis. -/
theorem tip_hash_emptyProduction :
    ∃ blocks, produce genesisHeader [emptyProduction ⟨0⟩, emptyProduction ⟨10 ^ 12⟩] =
        .ok blocks ∧
      hashBlockHeader (tip genesisHeader blocks) = hashBlockHeader genesisHeader := by
  obtain ⟨blocks, hblocks⟩ : ∃ blocks, produce genesisHeader
      [emptyProduction ⟨0⟩, emptyProduction ⟨10 ^ 12⟩] = .ok blocks :=
    exists_produce_iff.mpr (by decide)
  have hnone : produce genesisHeader [] = .ok [] := rfl
  have haddress : ∀ p ∈ [emptyProduction ⟨0⟩, emptyProduction ⟨10 ^ 12⟩],
      p.validator.address.bytes.length = 20 := by
    simp only [List.mem_cons, List.not_mem_nil, or_false, forall_eq_or_imp, forall_eq]
    exact ⟨Crypto.length_deriveAddress _, Crypto.length_deriveAddress _⟩
  exact ⟨blocks, hblocks, (tip_hash_eq_iff haddress (List.forall_mem_nil _) hblocks hnone).mpr
    ⟨rfl, by decide⟩⟩

end Protocol

end CryptoCoin
