import CryptoCoin.Protocol.Crypto
import CryptoCoin.Protocol.Merkle
import CryptoCoin.Protocol.Serialize
import Mathlib.Data.Finset.Dedup
import Mathlib.Data.Finset.Card

/-!
# Block creation and validation

The functions of `CryptoCoin.Protocol.Block`. The current time, which `createBlock`
reads from the clock, is an argument here. Hashes of transactions, votes and
bodies take the hash function as a parameter, so that statements about an
abstract hash and about the repository's own one share a definition.

For every validator there is one lemma that says exactly when it accepts; the
results about blocks use these lemmas and do not unfold the validators again.
-/

namespace CryptoCoin

namespace Protocol

/-! ### Roots -/

section Roots

variable (hash : ByteString → Hash)

def txHash (tx : Transaction) : Hash := hash tx.serializeForSigning

def voteHash (vote : Vote) : Hash := hash (serializeVote vote)

def computeMerkleRoot (hashes : List Hash) : MerkleRoot := ⟨Merkle.computeRoot hash hashes⟩

def bodyRoot (body : BlockBody) : MerkleRoot :=
  Merkle.combineRoots hash (computeMerkleRoot hash (body.bbTransactions.map (txHash hash)))
    (computeMerkleRoot hash (body.bbVotes.map (voteHash hash)))

end Roots

def computeStateRoot (utxoSet : UTxOSet) : Hash :=
  Merkle.computeRoot Crypto.hash
    (utxoSet.unUTxOSet.toAscList.map fun entry =>
      Crypto.hash (serializeUTxOEntry entry.1 entry.2))

def hashBlockHeader (header : BlockHeader) : Hash := Crypto.hash (serializeHeader header)

/-! ### Signing -/

def signBlock (privKey : PrivateKey) (header : BlockHeader) : Result ProtocolError Signature :=
  match Crypto.sign privKey (serializeHeader header) with
  | some sig => .ok sig
  | none => .error (.left (.cryptoError "signing failed"))

theorem signBlock_eq_ok (privKey : PrivateKey) (header : BlockHeader) :
    signBlock privKey header =
      .ok ⟨Crypto.ed25519Sign privKey.bytes (serializeHeader header)⟩ := by
  delta signBlock
  rw [Crypto.sign_eq_some]

/-- The verification key of a validator: the bytes of its address. -/
def derivePublicKey (validator : ValidatorId) : PublicKey := ⟨validator.address.bytes⟩

def verifyBlockSignature (header : BlockHeader) : Bool :=
  Crypto.verify (derivePublicKey header.bhValidator) header.bhSignature
    header.serializeForSigning

/-! ### Creation -/

def createBlock (timestamp : Timestamp) (parentHeader : BlockHeader) (slot : SlotNumber)
    (epoch : EpochNumber) (validator : ValidatorId) (privKey : PrivateKey)
    (txs : List Transaction) (votes : List Vote) (utxoSet : UTxOSet) :
    Result ProtocolError Block := do
  let blockNumber ← parentHeader.bhBlockNumber.succ
  let body : BlockBody := ⟨txs, votes⟩
  let header : BlockHeader :=
    { bhParentHash := hashBlockHeader parentHeader
      bhBlockNumber := blockNumber
      bhSlotNumber := slot
      bhEpochNumber := epoch
      bhTimestamp := timestamp
      bhValidator := validator
      bhMerkleRoot := bodyRoot Crypto.hash body
      bhStateRoot := computeStateRoot utxoSet
      bhNonce := 0
      bhVersion := 1
      bhSignature := ⟨[]⟩ }
  let signature ← signBlock privKey header
  .ok ⟨{ header with bhSignature := signature }, body⟩

/-! ### Validation of transactions -/

def validateInput (utxoMap : AscMap UTxOId UTxO) (input : TxInput) :
    Result ValidationError Unit :=
  match AscMap.lookup input.tiUtxoId utxoMap with
  | none => .error (.left (.doubleSpend input.tiUtxoId))
  | some _ => .ok ()

/-- The total of the spent amounts, in 64-bit arithmetic. -/
def sumInputs (tx : Transaction) (m : AscMap UTxOId UTxO) : Amount :=
  ⟨tx.txInputs.foldl (fun acc input =>
    match AscMap.lookup input.tiUtxoId m with
    | some utxo => acc + utxo.uAmount.unAmount
    | none => acc) 0⟩

def sumOutputs (tx : Transaction) : Amount :=
  ⟨tx.txOutputs.foldl (fun acc o => acc + o.toAmount.unAmount) 0⟩

/-- `Left $ VEDoubleSpend (head inputIds)`; `head` fails on the empty list. -/
def rejectDoubleSpend : List UTxOId → Result ValidationError Unit
  | [] => .error (.bottom "Prelude.head: empty list")
  | uid :: _ => .error (.left (.doubleSpend uid))

def validateDistinct (inputIds : List UTxOId) : Result ValidationError Unit :=
  if inputIds.length ≠ inputIds.toFinset.card then rejectDoubleSpend inputIds else .ok ()

def validateTransaction (utxoSet : UTxOSet) (tx : Transaction) :
    Result ValidationError Transaction := do
  let utxoMap := utxoSet.unUTxOSet
  rejectIf (¬ Crypto.verify tx.txPublicKey tx.txSignature tx.serializeForSigning)
    ValidationError.invalidSignature
  mapM_ (validateInput utxoMap) tx.txInputs
  let inputIds := tx.txInputs.map TxInput.tiUtxoId
  validateDistinct inputIds
  let totalInput := sumInputs tx utxoMap
  let totalOutput := sumOutputs tx
  rejectIf (totalInput.unAmount < totalOutput.unAmount)
    (ValidationError.insufficientFunds totalInput totalOutput)
  .ok tx

/-! ### Validation of blocks -/

/-- The loop of `nubOrd`, with the set of the elements seen so far. -/
def nubOrdFrom {α : Type} [DecidableEq α] : Finset α → List α → List α
  | _, [] => []
  | s, x :: xs => if x ∈ s then nubOrdFrom s xs else x :: nubOrdFrom (insert x s) xs

def nubOrd {α : Type} [DecidableEq α] (xs : List α) : List α := nubOrdFrom ∅ xs

def bodyInputIds (txs : List Transaction) : List UTxOId :=
  txs.flatMap fun tx => tx.txInputs.map TxInput.tiUtxoId

def validateBlockSize (body : BlockBody) (params : ProtocolParams) :
    Result ValidationError Unit :=
  let actualSize := UInt32.ofNat (serializeBody body).length
  rejectIf (params.ppMaxBlockSize < actualSize)
    (ValidationError.blockTooLarge actualSize params.ppMaxBlockSize)

def validateBlockHeader (chainState : ChainState) (header : BlockHeader)
    (_params : ProtocolParams) : Result ValidationError BlockHeader := do
  rejectIf (header.bhParentHash ≠ chainState.csTipHash)
    (ValidationError.invalidBlockStructure "parent hash does not match chain tip")
  let next ← chainState.csTipNumber.succ
  rejectIf (header.bhBlockNumber ≠ next)
    (ValidationError.invalidBlockStructure "block number is not sequential")
  rejectIf (¬ verifyBlockSignature header) ValidationError.invalidSignature
  rejectIf (header.bhVersion ≠ 1)
    (ValidationError.invalidBlockStructure "unsupported block version")
  .ok header

def validateBlockBody (chainState : ChainState) (body : BlockBody) (_header : BlockHeader) :
    Result ValidationError BlockBody := do
  mapM_ (validateTransaction chainState.csUtxoSet) body.bbTransactions
  let inputIds := bodyInputIds body.bbTransactions
  rejectIf (inputIds.length ≠ (nubOrd inputIds).length)
    (ValidationError.invalidBlockStructure "duplicate UTxO inputs in block")
  .ok body

def validateBlock (chainState : ChainState) (block : Block) (params : ProtocolParams) :
    Result ValidationError Block := do
  let header := block.bHeader
  let body := block.bBody
  validateBlockSize body params
  let _ ← validateBlockHeader chainState header params
  let _ ← validateBlockBody chainState body header
  let computedBodyRoot := bodyRoot Crypto.hash body
  rejectIf (computedBodyRoot ≠ header.bhMerkleRoot)
    (ValidationError.merkleRootMismatch header.bhMerkleRoot computedBodyRoot)
  .ok block

/-! ### When the validators accept -/

theorem validateInput_eq_ok_iff {utxoMap : AscMap UTxOId UTxO} {input : TxInput} {u : Unit} :
    validateInput utxoMap input = .ok u ↔
      ∃ utxo, AscMap.lookup input.tiUtxoId utxoMap = some utxo := by
  cases h : AscMap.lookup input.tiUtxoId utxoMap <;> simp [validateInput, h]

theorem length_ne_card_toFinset_iff {α : Type*} [DecidableEq α] {l : List α} :
    l.length ≠ l.toFinset.card ↔ ¬ l.Nodup := by
  rw [not_iff_not, eq_comm, ← Multiset.coe_nodup, ← Multiset.toFinset_card_eq_card_iff_nodup]
  rfl

theorem validateDistinct_eq_ok_iff {inputIds : List UTxOId} {u : Unit} :
    validateDistinct inputIds = .ok u ↔ inputIds.Nodup := by
  by_cases h : inputIds.Nodup
  · rw [validateDistinct, if_neg (by rw [length_ne_card_toFinset_iff, not_not]; exact h)]
    simp [h]
  · rw [validateDistinct, if_pos (length_ne_card_toFinset_iff.mpr h)]
    cases inputIds with
    | nil => simp at h
    | cons uid rest => simpa [rejectDoubleSpend] using h

/-- A transaction is accepted exactly when its signature verifies under the key
it carries, its inputs exist and differ, and the 64-bit totals balance. -/
theorem validateTransaction_eq_ok_iff {utxoSet : UTxOSet} {tx tx' : Transaction} :
    validateTransaction utxoSet tx = .ok tx' ↔
      tx' = tx ∧
        Crypto.verify tx.txPublicKey tx.txSignature tx.serializeForSigning = true ∧
        (∀ input ∈ tx.txInputs,
          ∃ utxo, AscMap.lookup input.tiUtxoId utxoSet.unUTxOSet = some utxo) ∧
        (tx.txInputs.map TxInput.tiUtxoId).Nodup ∧
        (sumOutputs tx).unAmount ≤ (sumInputs tx utxoSet.unUTxOSet).unAmount := by
  simp only [validateTransaction, bind_eq_ok_iff, rejectIf_eq_ok_iff, mapM_eq_ok_iff,
    validateInput_eq_ok_iff, validateDistinct_eq_ok_iff, not_not, UInt64.not_lt,
    exists_const, Except.ok.injEq]
  constructor
  · rintro ⟨hsig, hin, hnd, hsum, rfl⟩
    exact ⟨rfl, hsig, hin, hnd, hsum⟩
  · rintro ⟨rfl, hsig, hin, hnd, hsum⟩
    exact ⟨hsig, hin, hnd, hsum, rfl⟩

theorem nubOrdFrom_spec {α : Type} [DecidableEq α] (l : List α) (s : Finset α) :
    (nubOrdFrom s l).length ≤ l.length ∧
      (l.length = (nubOrdFrom s l).length ↔ l.Nodup ∧ ∀ x ∈ l, x ∉ s) := by
  induction l generalizing s with
  | nil => simp [nubOrdFrom]
  | cons x xs ih =>
      by_cases hx : x ∈ s
      · obtain ⟨hle, _⟩ := ih s
        rw [nubOrdFrom, if_pos hx, List.length_cons]
        refine ⟨by omega, ⟨fun h => by omega, fun h => ?_⟩⟩
        exact absurd hx (h.2 x List.mem_cons_self)
      · obtain ⟨hle, hiff⟩ := ih (insert x s)
        rw [nubOrdFrom, if_neg hx, List.length_cons, List.length_cons, Nat.add_right_cancel_iff,
          hiff, List.nodup_cons]
        refine ⟨by omega, ⟨?_, ?_⟩⟩
        · rintro ⟨hnd, hnot⟩
          refine ⟨⟨fun hmem => hnot x hmem (Finset.mem_insert_self x s), hnd⟩, ?_⟩
          intro y hy
          rcases List.mem_cons.mp hy with rfl | hy
          · exact hx
          · exact fun hys => hnot y hy (Finset.mem_insert_of_mem hys)
        · rintro ⟨⟨hxxs, hnd⟩, hnot⟩
          refine ⟨hnd, fun y hy hmem => ?_⟩
          rcases Finset.mem_insert.mp hmem with rfl | hys
          · exact hxxs hy
          · exact hnot y (List.mem_cons_of_mem _ hy) hys

theorem length_eq_length_nubOrd_iff {α : Type} [DecidableEq α] {l : List α} :
    l.length = (nubOrd l).length ↔ l.Nodup := by
  rw [nubOrd, (nubOrdFrom_spec l ∅).2]
  simp

theorem validateBlockBody_eq_ok_iff {chainState : ChainState} {body body' : BlockBody}
    {header : BlockHeader} :
    validateBlockBody chainState body header = .ok body' ↔
      body' = body ∧
        (∀ tx ∈ body.bbTransactions, validateTransaction chainState.csUtxoSet tx = .ok tx) ∧
        (bodyInputIds body.bbTransactions).Nodup := by
  have hself : ∀ tx : Transaction, (∃ tx', validateTransaction chainState.csUtxoSet tx = .ok tx') ↔
      validateTransaction chainState.csUtxoSet tx = .ok tx := by
    intro tx
    refine ⟨?_, fun h => ⟨tx, h⟩⟩
    rintro ⟨tx', h⟩
    have heq : tx' = tx := (validateTransaction_eq_ok_iff.mp h).1
    rwa [heq] at h
  simp only [validateBlockBody, bind_eq_ok_iff, rejectIf_eq_ok_iff, mapM_eq_ok_iff, hself,
    ne_eq, not_not, length_eq_length_nubOrd_iff, exists_const, Except.ok.injEq]
  constructor
  · rintro ⟨htx, hnd, rfl⟩
    exact ⟨rfl, htx, hnd⟩
  · rintro ⟨rfl, htx, hnd⟩
    exact ⟨htx, hnd, rfl⟩

theorem exists_lookup_of_validateBlockBody {chainState : ChainState} {body body' : BlockBody}
    {header : BlockHeader} (h : validateBlockBody chainState body header = .ok body')
    {uid : UTxOId} (huid : uid ∈ bodyInputIds body.bbTransactions) :
    ∃ utxo, AscMap.lookup uid chainState.csUtxoSet.unUTxOSet = some utxo := by
  obtain ⟨tx, htx, hinput⟩ := List.mem_flatMap.mp huid
  obtain ⟨input, hmem, rfl⟩ := List.mem_map.mp hinput
  have hvalid := (validateBlockBody_eq_ok_iff.mp h).2.1 tx htx
  exact (validateTransaction_eq_ok_iff.mp hvalid).2.2.1 input hmem

/-- The double-spend check is exact: it passes the bodies whose transactions pass
and whose inputs, taken together, do not repeat. -/
theorem validateBlockBody_exact (chainState : ChainState) (header : BlockHeader)
    (body : BlockBody) :
    ((∃ body', validateBlockBody chainState body header = .ok body') ↔
        (∀ tx ∈ body.bbTransactions,
          ∃ tx', validateTransaction chainState.csUtxoSet tx = .ok tx') ∧
        (body.bbTransactions.flatMap fun tx => tx.txInputs.map TxInput.tiUtxoId).Nodup) ∧
      ∀ body', validateBlockBody chainState body header = .ok body' →
        (bodyInputIds body.bbTransactions).Pairwise (· ≠ ·) ∧
          ∀ uid ∈ bodyInputIds body.bbTransactions,
            ∃ utxo, AscMap.lookup uid chainState.csUtxoSet.unUTxOSet = some utxo := by
  constructor
  · constructor
    · rintro ⟨body', h⟩
      obtain ⟨_, hvalid, hnodup⟩ := validateBlockBody_eq_ok_iff.mp h
      exact ⟨fun tx htx => ⟨tx, hvalid tx htx⟩, hnodup⟩
    · rintro ⟨hvalid, hnodup⟩
      refine ⟨body, validateBlockBody_eq_ok_iff.mpr ⟨rfl, ?_, hnodup⟩⟩
      intro tx htx
      obtain ⟨tx', h⟩ := hvalid tx htx
      -- a validated transaction is returned as it is
      rwa [(validateTransaction_eq_ok_iff.mp h).1] at h
  · intro body' h
    exact ⟨(validateBlockBody_eq_ok_iff.mp h).2.2,
      fun uid huid => exists_lookup_of_validateBlockBody h huid⟩

/-- A header is accepted exactly when it extends the tip, verifies under the
bytes of its validator's address and has version 1. -/
theorem validateBlockHeader_eq_ok_iff {chainState : ChainState} {header header' : BlockHeader}
    {params : ProtocolParams} :
    validateBlockHeader chainState header params = .ok header' ↔
      header' = header ∧ header.bhParentHash = chainState.csTipHash ∧
        chainState.csTipNumber.unBlockNumber ≠ maxWord64 ∧
        header.bhBlockNumber = ⟨chainState.csTipNumber.unBlockNumber + 1⟩ ∧
        verifyBlockSignature header = true ∧ header.bhVersion = 1 := by
  simp only [validateBlockHeader, bind_eq_ok_iff, rejectIf_eq_ok_iff,
    BlockNumber.succ_eq_ok_iff, ne_eq, not_not, exists_const, Except.ok.injEq]
  constructor
  · rintro ⟨hparent, next, ⟨hmax, rfl⟩, hnumber, hsig, hversion, rfl⟩
    exact ⟨rfl, hparent, hmax, hnumber, hsig, hversion⟩
  · rintro ⟨rfl, hparent, hmax, hnumber, hsig, hversion⟩
    exact ⟨hparent, _, ⟨hmax, rfl⟩, hnumber, hsig, hversion, rfl⟩

theorem validateBlock_eq_ok_iff {chainState : ChainState} {block block' : Block}
    {params : ProtocolParams} :
    validateBlock chainState block params = .ok block' ↔
      block' = block ∧
        UInt32.ofNat (serializeBody block.bBody).length ≤ params.ppMaxBlockSize ∧
        validateBlockHeader chainState block.bHeader params = .ok block.bHeader ∧
        validateBlockBody chainState block.bBody block.bHeader = .ok block.bBody ∧
        bodyRoot Crypto.hash block.bBody = block.bHeader.bhMerkleRoot := by
  simp only [validateBlock, validateBlockSize, bind_eq_ok_iff, rejectIf_eq_ok_iff, ne_eq,
    not_not, UInt32.not_lt, exists_const, Except.ok.injEq]
  constructor
  · rintro ⟨hsize, header, hheader, body, hbody, hroot, rfl⟩
    have hh : header = block.bHeader := (validateBlockHeader_eq_ok_iff.mp hheader).1
    have hb : body = block.bBody := (validateBlockBody_eq_ok_iff.mp hbody).1
    subst hh hb
    exact ⟨rfl, hsize, hheader, hbody, hroot⟩
  · rintro ⟨rfl, hsize, hheader, hbody, hroot⟩
    exact ⟨hsize, _, hheader, _, hbody, hroot, rfl⟩

theorem validateTransaction_of_validateBlock {chainState : ChainState} {block block' : Block}
    {params : ProtocolParams} (h : validateBlock chainState block params = .ok block')
    {tx : Transaction} (htx : tx ∈ block.bBody.bbTransactions) :
    validateTransaction chainState.csUtxoSet tx = .ok tx := by
  obtain ⟨_, _, _, hbody, _⟩ := validateBlock_eq_ok_iff.mp h
  exact (validateBlockBody_eq_ok_iff.mp hbody).2.1 tx htx

/-! ### Forged transactions and headers -/

/-- A transaction without fee under any key, with a signature computed without
the secret of that key. -/
def forgeTransaction (txId : TxId) (inputs : List TxInput) (outputs : List TxOutput)
    (pubKey : PublicKey) : Transaction :=
  let tx : Transaction :=
    { txId := txId
      txInputs := inputs
      txOutputs := outputs
      txSignature := ⟨[]⟩
      txPublicKey := pubKey
      txNonce := 0
      txFee := ⟨0⟩ }
  { tx with txSignature := Crypto.forgeSignature pubKey tx.serializeForSigning }

theorem validateTransaction_forgeTransaction {utxoSet : UTxOSet} {txId : TxId}
    {inputs : List TxInput} {outputs : List TxOutput} {pubKey : PublicKey}
    (hin : ∀ input ∈ inputs,
      ∃ utxo, AscMap.lookup input.tiUtxoId utxoSet.unUTxOSet = some utxo)
    (hnd : (inputs.map TxInput.tiUtxoId).Nodup)
    (hsum : (sumOutputs (forgeTransaction txId inputs outputs pubKey)).unAmount ≤
      (sumInputs (forgeTransaction txId inputs outputs pubKey) utxoSet.unUTxOSet).unAmount) :
    validateTransaction utxoSet (forgeTransaction txId inputs outputs pubKey) =
      .ok (forgeTransaction txId inputs outputs pubKey) := by
  refine validateTransaction_eq_ok_iff.mpr ⟨rfl, ?_, hin, hnd, hsum⟩
  exact Crypto.verify_forgeSignature _ _

theorem validateBlockBody_forgeTransaction {chainState : ChainState} {uid : UTxOId}
    {utxo : UTxO} (h : AscMap.lookup uid chainState.csUtxoSet.unUTxOSet = some utxo)
    {txId : TxId} {outputs : List TxOutput} {pubKey : PublicKey}
    (hsum : (sumOutputs (forgeTransaction txId [⟨uid⟩] outputs pubKey)).unAmount ≤
      utxo.uAmount.unAmount) (header : BlockHeader) :
    validateBlockBody chainState ⟨[forgeTransaction txId [⟨uid⟩] outputs pubKey], []⟩ header =
      .ok ⟨[forgeTransaction txId [⟨uid⟩] outputs pubKey], []⟩ := by
  have hinput : sumInputs (forgeTransaction txId [⟨uid⟩] outputs pubKey)
      chainState.csUtxoSet.unUTxOSet = utxo.uAmount := by
    simp only [sumInputs, forgeTransaction, List.foldl_cons, List.foldl_nil, h, UInt64.zero_add]
  refine validateBlockBody_eq_ok_iff.mpr ⟨rfl, ?_, List.nodup_singleton uid⟩
  intro tx htx
  rw [List.mem_singleton.mp htx]
  refine validateTransaction_forgeTransaction ?_ (List.nodup_singleton uid) ?_
  · intro input hmem
    rw [List.mem_singleton.mp hmem]
    exact ⟨utxo, h⟩
  · rwa [hinput]

/-- A header on top of the tip that declares the body's root, with a signature
computed without any key. -/
def forgeHeader (chainState : ChainState) (body : BlockBody) : BlockHeader :=
  let header : BlockHeader :=
    { bhParentHash := chainState.csTipHash
      bhBlockNumber := ⟨chainState.csTipNumber.unBlockNumber + 1⟩
      bhSlotNumber := ⟨0⟩
      bhEpochNumber := ⟨0⟩
      bhTimestamp := ⟨0⟩
      bhValidator := ⟨⟨List.replicate 20 0⟩⟩
      bhMerkleRoot := bodyRoot Crypto.hash body
      bhStateRoot := Merkle.emptyTreeHash
      bhNonce := 0
      bhVersion := 1
      bhSignature := ⟨[]⟩ }
  { header with
    bhSignature := Crypto.forgeSignature (derivePublicKey header.bhValidator)
      (serializeHeader header) }

/-- Below the largest block number, every body that passes the size and body
checks is accepted under some header. -/
theorem validateBlock_forgeHeader {chainState : ChainState} {body : BlockBody}
    {params : ProtocolParams}
    (htip : chainState.csTipNumber.unBlockNumber ≠ maxWord64)
    (hsize : UInt32.ofNat (serializeBody body).length ≤ params.ppMaxBlockSize)
    (hbody : validateBlockBody chainState body (forgeHeader chainState body) = .ok body) :
    validateBlock chainState ⟨forgeHeader chainState body, body⟩ params =
      .ok ⟨forgeHeader chainState body, body⟩ := by
  refine validateBlock_eq_ok_iff.mpr ⟨rfl, hsize, ?_, hbody, rfl⟩
  refine validateBlockHeader_eq_ok_iff.mpr ⟨rfl, rfl, htip, rfl, ?_, rfl⟩
  exact Crypto.verify_forgeSignature _ _

end Protocol

end CryptoCoin
