import CryptoCoin.Protocol.Conservation

/-!
# The identifiers of new outputs

The outputs of a transaction are known by its `txId` and their positions. The `txId` is
a field of the transaction that no validator compares with the transaction's hash or
with the unspent outputs, so nothing keeps the identifiers of a block's outputs apart
from each other or from those already in use. They are apart exactly when the `txId`s
of the block happen to be (`outputsFresh_iff_txIds`), and every chain that accepts a block
at all accepts one whose outputs clash (`outputs_fresh_iff`).
-/

namespace CryptoCoin

namespace Protocol

/-! ### The identifiers of a transaction -/

def outputIds (tx : Transaction) : List UTxOId :=
  (List.range tx.txOutputs.length).map fun i => ⟨(tx.txId, UInt64.ofNat i)⟩

def bodyOutputIds (txs : List Transaction) : List UTxOId := txs.flatMap outputIds

theorem mem_outputIds {tx : Transaction} {uid : UTxOId} :
    uid ∈ outputIds tx ↔
      uid.unUTxOId.1 = tx.txId ∧ uid.unUTxOId.2.toNat < tx.txOutputs.length := by
  rw [outputIds, List.mem_map]
  constructor
  · rintro ⟨i, hi, rfl⟩
    refine ⟨rfl, ?_⟩
    calc (UInt64.ofNat i).toNat = i % 2 ^ 64 := UInt64.toNat_ofNat'
      _ ≤ i := Nat.mod_le _ _
      _ < tx.txOutputs.length := List.mem_range.mp hi
  · rintro ⟨hid, hlt⟩
    refine ⟨uid.unUTxOId.2.toNat, List.mem_range.mpr hlt, ?_⟩
    rw [UInt64.ofNat_toNat, ← hid]

theorem nodup_outputIds_iff {tx : Transaction} :
    (outputIds tx).Nodup ↔ tx.txOutputs.length ≤ 2 ^ 64 := by
  rw [outputIds, List.nodup_map_iff_inj_on List.nodup_range]
  constructor
  · intro hinj
    by_contra hlong
    have hzero : 0 ∈ List.range tx.txOutputs.length := List.mem_range.mpr (by omega)
    have hwrap : 2 ^ 64 ∈ List.range tx.txOutputs.length := List.mem_range.mpr (by omega)
    exact absurd (hinj 0 hzero (2 ^ 64) hwrap rfl) (by decide)
  · intro hlen i hi j hj heq
    rw [List.mem_range] at hi hj
    have hpos : UInt64.ofNat i = UInt64.ofNat j :=
      congrArg (fun u : UTxOId => u.unUTxOId.2) heq
    have hmod : i % 2 ^ 64 = j % 2 ^ 64 := by
      rw [← UInt64.toNat_ofNat', ← UInt64.toNat_ofNat', hpos]
    rwa [Nat.mod_eq_of_lt (by omega), Nat.mod_eq_of_lt (by omega)] at hmod

theorem disjoint_outputIds_iff {tx tx' : Transaction} :
    (outputIds tx).Disjoint (outputIds tx') ↔
      (tx.txOutputs ≠ [] → tx'.txOutputs ≠ [] → tx.txId ≠ tx'.txId) := by
  constructor
  · intro hdisj hne hne' hid
    -- the first outputs have one identifier
    have hfirst : (⟨(tx.txId, 0)⟩ : UTxOId) ∈ outputIds tx :=
      mem_outputIds.mpr ⟨rfl, List.length_pos_iff.mpr hne⟩
    exact hdisj hfirst (mem_outputIds.mpr ⟨hid, List.length_pos_iff.mpr hne'⟩)
  · intro hid uid hmem hmem'
    obtain ⟨htx, hlt⟩ := mem_outputIds.mp hmem
    obtain ⟨htx', hlt'⟩ := mem_outputIds.mp hmem'
    refine hid ?_ ?_ (htx.symm.trans htx')
    · exact List.ne_nil_of_length_pos (Nat.zero_lt_of_lt hlt)
    · exact List.ne_nil_of_length_pos (Nat.zero_lt_of_lt hlt')

/-! ### The identifiers of a block -/

theorem nodup_bodyOutputIds_iff {txs : List Transaction} :
    (bodyOutputIds txs).Nodup ↔
      (∀ tx ∈ txs, tx.txOutputs.length ≤ 2 ^ 64) ∧
        txs.Pairwise fun tx tx' =>
          tx.txOutputs ≠ [] → tx'.txOutputs ≠ [] → tx.txId ≠ tx'.txId := by
  rw [bodyOutputIds, List.nodup_flatMap]
  refine and_congr (forall₂_congr fun tx _ => nodup_outputIds_iff) ?_
  exact List.Pairwise.iff fun tx tx' => disjoint_outputIds_iff

theorem unused_bodyOutputIds_iff {utxoSet : UTxOSet} {txs : List Transaction} :
    (∀ uid ∈ bodyOutputIds txs, AscMap.lookup uid utxoSet.unUTxOSet = none) ↔
      ∀ tx ∈ txs, ∀ uid utxo, AscMap.lookup uid utxoSet.unUTxOSet = some utxo →
        uid.unUTxOId.1 = tx.txId → tx.txOutputs.length ≤ uid.unUTxOId.2.toNat := by
  constructor
  · intro hunused tx htx uid utxo hlookup hid
    by_contra hlt
    have hmem : uid ∈ bodyOutputIds txs :=
      List.mem_flatMap.mpr ⟨tx, htx, mem_outputIds.mpr ⟨hid, not_le.mp hlt⟩⟩
    rw [hunused uid hmem] at hlookup
    exact absurd hlookup (by simp)
  · intro hbehind uid hmem
    obtain ⟨tx, htx, huid⟩ := List.mem_flatMap.mp hmem
    obtain ⟨hid, hlt⟩ := mem_outputIds.mp huid
    rw [Option.eq_none_iff_forall_ne_some]
    intro utxo hlookup
    exact absurd (hbehind tx htx uid utxo hlookup hid) (not_le.mpr hlt)

/-- The outputs of a block are apart from each other and from those in use. -/
def OutputsFresh (chainState : ChainState) (block : Block) : Prop :=
  (bodyOutputIds block.bBody.bbTransactions).Nodup ∧
    ∀ uid ∈ bodyOutputIds block.bBody.bbTransactions,
      AscMap.lookup uid chainState.csUtxoSet.unUTxOSet = none

theorem outputsFresh_iff_txIds {chainState : ChainState} {block : Block} :
    OutputsFresh chainState block ↔
      (∀ tx ∈ block.bBody.bbTransactions, tx.txOutputs.length ≤ 2 ^ 64) ∧
        (block.bBody.bbTransactions.Pairwise fun tx tx' =>
          tx.txOutputs ≠ [] → tx'.txOutputs ≠ [] → tx.txId ≠ tx'.txId) ∧
        ∀ tx ∈ block.bBody.bbTransactions, ∀ uid utxo,
          AscMap.lookup uid chainState.csUtxoSet.unUTxOSet = some utxo →
          uid.unUTxOId.1 = tx.txId → tx.txOutputs.length ≤ uid.unUTxOId.2.toNat := by
  rw [OutputsFresh, nodup_bodyOutputIds_iff, unused_bodyOutputIds_iff, and_assoc]

/-! ### A block with equal outputs -/

/-- A transaction that spends nothing and has one output, of amount 0. -/
def hollowTransaction : Transaction :=
  forgeTransaction ⟨⟨List.replicate 32 2⟩⟩ [] [⟨⟨List.replicate 20 0xBB⟩, ⟨0⟩, none⟩]
    ⟨List.replicate 32 7⟩

def copiesBody (n : ℕ) : BlockBody := ⟨List.replicate n hollowTransaction, []⟩

theorem length_serializeBody_copiesBody (n : ℕ) :
    (serializeBody (copiesBody n)).length = n * 76 := by
  have hone : (serializeTransaction hollowTransaction).length = 76 := rfl
  rw [serializeBody, copiesBody, serializeTransactions, serializeVotes, List.flatMap_nil,
    List.append_nil, List.length_flatMap, List.map_replicate, hone, List.sum_replicate_nat]

theorem validateBlockBody_copiesBody (chainState : ChainState) (n : ℕ) (header : BlockHeader) :
    validateBlockBody chainState (copiesBody n) header = .ok (copiesBody n) := by
  have hinputs : bodyInputIds (copiesBody n).bbTransactions = [] := by
    rw [bodyInputIds, List.flatMap_eq_nil_iff]
    intro tx htx
    rw [List.eq_of_mem_replicate htx]
    rfl
  refine validateBlockBody_eq_ok_iff.mpr ⟨rfl, ?_, by rw [hinputs]; exact List.nodup_nil⟩
  intro tx htx
  rw [List.eq_of_mem_replicate htx]
  apply validateTransaction_forgeTransaction
  · exact fun input hinput => absurd hinput List.not_mem_nil
  · exact List.nodup_nil
  · exact UInt64.le_refl 0

/-- The size is computed modulo `2 ^ 32`, so `2 ^ 30` copies are within every limit. -/
theorem validateBlock_copiesBody {chainState : ChainState} (params : ProtocolParams)
    (htip : chainState.csTipNumber.unBlockNumber ≠ maxWord64) :
    validateBlock chainState
        ⟨forgeHeader chainState (copiesBody (2 ^ 30)), copiesBody (2 ^ 30)⟩ params =
      .ok ⟨forgeHeader chainState (copiesBody (2 ^ 30)), copiesBody (2 ^ 30)⟩ := by
  refine validateBlock_forgeHeader htip ?_ (validateBlockBody_copiesBody chainState _ _)
  have hsize : UInt32.ofNat (2 ^ 30 * 76) = 0 := by decide
  rw [length_serializeBody_copiesBody, hsize]
  exact UInt32.zero_le

theorem not_outputsFresh_copiesBody (chainState : ChainState) (header : BlockHeader) {n : ℕ}
    (hn : 2 ≤ n) : ¬ OutputsFresh chainState ⟨header, copiesBody n⟩ := by
  intro hfresh
  obtain ⟨_, hapart, _⟩ := outputsFresh_iff_txIds.mp hfresh
  have htwo : [hollowTransaction, hollowTransaction].Sublist
      (List.replicate n hollowTransaction) :=
    (List.replicate_sublist_replicate hollowTransaction).mpr hn
  have hpair := List.pairwise_pair.mp (hapart.sublist htwo)
  exact hpair (List.cons_ne_nil _ _) (List.cons_ne_nil _ _) rfl

/-- The outputs of all accepted blocks are fresh exactly when the tip has the last number, and
no block is accepted. -/
theorem outputs_fresh_iff (chainState : ChainState) (params : ProtocolParams) :
    (∀ block block', validateBlock chainState block params = .ok block' →
        OutputsFresh chainState block) ↔
      chainState.csTipNumber.unBlockNumber = maxWord64 := by
  constructor
  · intro hfresh
    by_contra htip
    have htwo : 2 ≤ 2 ^ 30 := by decide
    exact not_outputsFresh_copiesBody chainState _ htwo
      (hfresh _ _ (validateBlock_copiesBody params htip))
  · intro htip block block' haccept
    obtain ⟨_, _, hheader, _, _⟩ := validateBlock_eq_ok_iff.mp haccept
    exact absurd htip (validateBlockHeader_eq_ok_iff.mp hheader).2.2.1

/-! ### Spending a coin under a chosen identifier -/

/-- A block with one transaction, which pays the coin to somebody under a chosen
`txId`. -/
def payBlock (chainState : ChainState) (txId : TxId) : Block :=
  let tx := forgeTransaction txId [⟨coinOutput.uId⟩]
    [⟨⟨List.replicate 20 0xBB⟩, ⟨1⟩, none⟩] ⟨List.replicate 32 7⟩
  let body : BlockBody := ⟨[tx], []⟩
  ⟨forgeHeader chainState body, body⟩

theorem validateBlock_payBlock {chainState : ChainState} (txId : TxId)
    (htip : chainState.csTipNumber.unBlockNumber ≠ maxWord64)
    (hcoin : AscMap.lookup coinOutput.uId chainState.csUtxoSet.unUTxOSet = some coinOutput) :
    validateBlock chainState (payBlock chainState txId) ⟨0xFFFFFFFF⟩ =
      .ok (payBlock chainState txId) := by
  refine validateBlock_forgeHeader htip ?_ ?_
  · exact UInt32.le_iff_toNat_le.mpr (Nat.le_of_lt_succ (UInt32.toNat_lt _))
  · apply validateBlockBody_forgeTransaction hcoin
    exact UInt64.le_refl 1

/-! ### A block that overwrites an output -/

def otherCoin : UTxO := { coinOutput with uId := ⟨⟨⟨List.replicate 32 2⟩⟩, 0⟩ }

theorem coinOutput_lt_otherCoin : coinOutput.uId < otherCoin.uId := Or.inl (by decide)

def twoCoinChain : ChainState :=
  { coinChain with
    csUtxoSet := ⟨⟨[(coinOutput.uId, coinOutput), (otherCoin.uId, otherCoin)],
      List.pairwise_pair.mpr coinOutput_lt_otherCoin⟩⟩ }

/-- The first coin is paid under the `txId` of the second, whose output is then
overwritten. -/
theorem payBlock_overwrites :
    validateBlock twoCoinChain (payBlock twoCoinChain otherCoin.uId.unUTxOId.1) ⟨0xFFFFFFFF⟩ =
        .ok (payBlock twoCoinChain otherCoin.uId.unUTxOId.1) ∧
      bodyOutputIds
          (payBlock twoCoinChain otherCoin.uId.unUTxOId.1).bBody.bbTransactions =
        [otherCoin.uId] ∧
      AscMap.lookup otherCoin.uId twoCoinChain.csUtxoSet.unUTxOSet = some otherCoin := by
  refine ⟨validateBlock_payBlock _ (by decide) ?_, rfl, ?_⟩
  · exact AscMap.lookup_eq_some_of_mem UTxOId.lt_irrefl List.mem_cons_self
  · exact AscMap.lookup_eq_some_of_mem UTxOId.lt_irrefl
      (List.mem_cons_of_mem _ (List.mem_singleton_self _))

end Protocol

end CryptoCoin
