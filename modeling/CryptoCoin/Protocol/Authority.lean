import CryptoCoin.Protocol.Block

/-!
# Who may spend an output

A transaction carries the public key under which its signature is checked, and an
output carries the address of its owner. `SpendsOwnOutputs` is the link between
the two: the key of every transaction hashes to the address of every output it
spends. No validator compares them, so the link can be broken in every chain
state that holds an output and can be extended.
-/

namespace CryptoCoin

namespace Protocol

/-- Every input of the block names an output whose owner is the key that signs
the transaction. -/
def SpendsOwnOutputs (chainState : ChainState) (block : Block) : Prop :=
  ∀ tx ∈ block.bBody.bbTransactions, ∀ input ∈ tx.txInputs,
    ∃ utxo, AscMap.lookup input.tiUtxoId chainState.csUtxoSet.unUTxOSet = some utxo ∧
      utxo.uAddress = Crypto.deriveAddress tx.txPublicKey

set_option maxRecDepth 20000 in
theorem exists_deriveAddress_ne (addr : Address) :
    ∃ pubKey, Crypto.deriveAddress pubKey ≠ addr := by
  have hne : Crypto.deriveAddress ⟨[]⟩ ≠ Crypto.deriveAddress ⟨[1]⟩ := by decide
  by_cases h : Crypto.deriveAddress ⟨[]⟩ = addr
  · exact ⟨⟨[1]⟩, fun h' => hne (h.trans h'.symm)⟩
  · exact ⟨⟨[]⟩, h⟩

def theftBody (txId : TxId) (uid : UTxOId) (pubKey : PublicKey) : BlockBody :=
  ⟨[forgeTransaction txId [⟨uid⟩] [] pubKey], []⟩

theorem validateBlockBody_theftBody {chainState : ChainState} {uid : UTxOId} {utxo : UTxO}
    (h : AscMap.lookup uid chainState.csUtxoSet.unUTxOSet = some utxo) (txId : TxId)
    (pubKey : PublicKey) (header : BlockHeader) :
    validateBlockBody chainState (theftBody txId uid pubKey) header =
      .ok (theftBody txId uid pubKey) := by
  apply validateBlockBody_forgeTransaction h
  exact UInt64.zero_le

/-- The block size check reads the length modulo `2 ^ 32`, so an identifier of a
fitting length carries the body past every limit. -/
theorem exists_theftBody_size (uid : UTxOId) (pubKey : PublicKey) :
    ∃ txId, UInt32.ofNat (serializeBody (theftBody txId uid pubKey)).length = 0 := by
  obtain ⟨k, hk⟩ : ∃ k, k = (serializeUTxOId uid).length + 16 := ⟨_, rfl⟩
  refine ⟨⟨⟨List.replicate ((2 ^ 32 - 1) * k) 0⟩⟩, ?_⟩
  have hlen : (serializeBody (theftBody ⟨⟨List.replicate ((2 ^ 32 - 1) * k) 0⟩⟩ uid
      pubKey)).length = 2 ^ 32 * k := by
    simp only [theftBody, serializeBody, serializeTransactions, serializeTransaction,
      Transaction.serializeForSigning, forgeTransaction, serializeInputs, serializeInput,
      serializeOutputs, serializeVotes, serializeTxId, serializeAmount, List.flatMap_cons,
      List.flatMap_nil, List.append_nil, List.length_append, List.length_replicate,
      length_serializeWord64]
    omega
  rw [hlen]
  apply UInt32.toNat_inj.mp
  rw [UInt32.toNat_ofNat']
  exact Nat.mul_mod_right _ _

theorem exists_theft {chainState : ChainState} {params : ProtocolParams}
    (hne : chainState.csUtxoSet.unUTxOSet.toAscList ≠ [])
    (htip : chainState.csTipNumber.unBlockNumber ≠ maxWord64) :
    ∃ block, validateBlock chainState block params = .ok block ∧
      ¬ SpendsOwnOutputs chainState block := by
  obtain ⟨⟨uid, utxo⟩, hmem⟩ := List.exists_mem_of_ne_nil _ hne
  have hlookup : AscMap.lookup uid chainState.csUtxoSet.unUTxOSet = some utxo :=
    AscMap.lookup_eq_some_of_mem UTxOId.lt_irrefl hmem
  obtain ⟨pubKey, hkey⟩ := exists_deriveAddress_ne utxo.uAddress
  obtain ⟨txId, hsize⟩ := exists_theftBody_size uid pubKey
  have hfits : UInt32.ofNat (serializeBody (theftBody txId uid pubKey)).length ≤
      params.ppMaxBlockSize := by
    rw [hsize]
    exact UInt32.zero_le
  refine ⟨_, validateBlock_forgeHeader htip hfits
    (validateBlockBody_theftBody hlookup txId pubKey _), ?_⟩
  intro hspends
  obtain ⟨utxo', hlookup', haddr⟩ := hspends _ List.mem_cons_self ⟨uid⟩ List.mem_cons_self
  rw [hlookup, Option.some.injEq] at hlookup'
  rw [← hlookup'] at haddr
  exact hkey haddr.symm

/-- Blocks that spend only what their signers own are the only accepted ones
exactly in the chain states without any output and in those that no block can
extend. -/
theorem spendsOwnOutputs_iff (chainState : ChainState) (params : ProtocolParams) :
    (∀ block block', validateBlock chainState block params = .ok block' →
        SpendsOwnOutputs chainState block) ↔
      chainState.csUtxoSet.unUTxOSet.toAscList = [] ∨
        chainState.csTipNumber.unBlockNumber = maxWord64 := by
  constructor
  · intro h
    by_contra hne
    rw [not_or] at hne
    obtain ⟨block, haccept, hforeign⟩ := exists_theft hne.1 hne.2
    exact hforeign (h block block haccept)
  · rintro (hempty | hmax) block block' haccept tx htx input hinput
    · -- an accepted transaction has no input to an empty set
      have hvalid := validateTransaction_of_validateBlock haccept htx
      obtain ⟨_, _, hexists, _⟩ := validateTransaction_eq_ok_iff.mp hvalid
      obtain ⟨utxo, hutxo⟩ := hexists input hinput
      rw [AscMap.lookup, hempty] at hutxo
      simp at hutxo
    · obtain ⟨_, _, hheader, _, _⟩ := validateBlock_eq_ok_iff.mp haccept
      exact absurd hmax (validateBlockHeader_eq_ok_iff.mp hheader).2.2.1

/-! ### A stolen output -/

/-- An output of amount 5, owned by the address of twenty bytes `0xAA`. -/
def victimOutput : UTxO :=
  { uId := ⟨⟨⟨List.replicate 32 1⟩⟩, 0⟩
    uAddress := ⟨List.replicate 20 0xAA⟩
    uAmount := ⟨5⟩
    uData := none }

/-- A chain with that output and nothing else. -/
def victimChain : ChainState :=
  { csUtxoSet := ⟨AscMap.singleton victimOutput.uId victimOutput⟩
    csConsensus := ⟨⟨[]⟩⟩
    csTipHash := ⟨List.replicate 32 0⟩
    csTipNumber := ⟨0⟩ }

/-- A block that spends it under the key of thirty-two bytes `7`. -/
def theftBlock : Block :=
  let body := theftBody ⟨⟨List.replicate 32 2⟩⟩ victimOutput.uId ⟨List.replicate 32 7⟩
  ⟨forgeHeader victimChain body, body⟩

set_option maxRecDepth 20000 in
/-- The block is accepted although the key of the spender does not belong to the
address of the output. -/
theorem theftBlock_accepted :
    validateBlock victimChain theftBlock ⟨1000000⟩ = .ok theftBlock ∧
      ¬ SpendsOwnOutputs victimChain theftBlock := by
  have hlookup : AscMap.lookup victimOutput.uId victimChain.csUtxoSet.unUTxOSet =
      some victimOutput := AscMap.lookup_singleton _ _
  constructor
  · refine validateBlock_forgeHeader ?_ ?_ (validateBlockBody_theftBody hlookup _ _ _)
    · decide
    · decide
  · intro h
    obtain ⟨utxo, hutxo, haddr⟩ := h _ List.mem_cons_self ⟨victimOutput.uId⟩
      List.mem_cons_self
    rw [hlookup, Option.some.injEq] at hutxo
    rw [← hutxo] at haddr
    revert haddr
    decide

end Protocol

end CryptoCoin
