import CryptoCoin.Protocol.Block
import Mathlib.Algebra.BigOperators.Group.Finset.Basic
import Mathlib.Algebra.Order.BigOperators.Group.List

/-!
# Conservation of value

The validators add amounts in 64-bit arithmetic. Here the totals are taken in
`ℕ`: `exactOutputs` for what a list of transactions creates and `exactInputs` for
what it consumes, an output named by several inputs counted once. An accepted
block creates no value as long as no transaction's outputs reach `2 ^ 64`, and a
list of outputs that reaches it can be put in an accepted block that does.
-/

namespace CryptoCoin

namespace Protocol

def exactTotal (outputs : List TxOutput) : ℕ :=
  (outputs.map fun o => o.toAmount.unAmount.toNat).sum

def exactOutputs (txs : List Transaction) : ℕ :=
  (txs.map fun tx => exactTotal tx.txOutputs).sum

/-- The amount of an output of the set, as the 64-bit word that the sums add. -/
def amountAt (utxoSet : UTxOSet) (uid : UTxOId) : UInt64 :=
  match AscMap.lookup uid utxoSet.unUTxOSet with
  | some utxo => utxo.uAmount.unAmount
  | none => 0

/-- What the transactions consume: the amounts of the distinct outputs they name. -/
def exactInputs (utxoSet : UTxOSet) (txs : List Transaction) : ℕ :=
  ∑ uid ∈ (bodyInputIds txs).toFinset, (amountAt utxoSet uid).toNat

/-! ### The 64-bit totals -/

theorem toNat_sumOutputs (tx : Transaction) :
    (sumOutputs tx).unAmount.toNat = exactTotal tx.txOutputs % 2 ^ 64 := by
  rw [sumOutputs, Words.toNat_foldl_add fun o : TxOutput => o.toAmount.unAmount]
  simp [exactTotal]

theorem toNat_sumInputs (utxoSet : UTxOSet) (tx : Transaction) :
    (sumInputs tx utxoSet.unUTxOSet).unAmount.toNat =
      ((tx.txInputs.map TxInput.tiUtxoId).map fun uid =>
        (amountAt utxoSet uid).toNat).sum % 2 ^ 64 := by
  have hsum : sumInputs tx utxoSet.unUTxOSet = ⟨tx.txInputs.foldl (fun acc input =>
      acc + amountAt utxoSet input.tiUtxoId) 0⟩ := by
    unfold sumInputs
    congr 2
    funext acc input
    rw [amountAt]
    cases AscMap.lookup input.tiUtxoId utxoSet.unUTxOSet with
    | none => exact (UInt64.add_zero _).symm
    | some utxo => rfl
  rw [hsum, Words.toNat_foldl_add fun input : TxInput => amountAt utxoSet input.tiUtxoId]
  simp [List.map_map, Function.comp_def]

/-- An accepted transaction whose outputs stay below `2 ^ 64` creates no value:
reducing the input total modulo `2 ^ 64` can only make the check stricter. -/
theorem exactTotal_le_of_validateTransaction {utxoSet : UTxOSet} {tx tx' : Transaction}
    (h : validateTransaction utxoSet tx = .ok tx') (hlt : exactTotal tx.txOutputs < 2 ^ 64) :
    exactTotal tx.txOutputs ≤ ((tx.txInputs.map TxInput.tiUtxoId).map fun uid =>
      (amountAt utxoSet uid).toNat).sum := by
  obtain ⟨_, _, _, _, hsum⟩ := validateTransaction_eq_ok_iff.mp h
  have hle := UInt64.le_iff_toNat_le.mp hsum
  rw [toNat_sumOutputs, toNat_sumInputs, Nat.mod_eq_of_lt hlt] at hle
  exact hle.trans (Nat.mod_le _ _)

theorem exactInputs_eq_sum (utxoSet : UTxOSet) {txs : List Transaction}
    (hnd : (bodyInputIds txs).Nodup) :
    exactInputs utxoSet txs =
      (txs.map fun tx => ((tx.txInputs.map TxInput.tiUtxoId).map
        fun uid => (amountAt utxoSet uid).toNat).sum).sum := by
  rw [exactInputs, List.sum_toFinset _ hnd, bodyInputIds, List.map_flatMap,
    List.flatMap_def, List.sum_flatten, List.map_map]
  rfl

theorem exactOutputs_le_of_validateBlock {chainState : ChainState} {block block' : Block}
    {params : ProtocolParams} (h : validateBlock chainState block params = .ok block')
    (hlt : ∀ tx ∈ block.bBody.bbTransactions, exactTotal tx.txOutputs < 2 ^ 64) :
    exactOutputs block.bBody.bbTransactions ≤
      exactInputs chainState.csUtxoSet block.bBody.bbTransactions := by
  obtain ⟨_, _, _, hbody, _⟩ := validateBlock_eq_ok_iff.mp h
  obtain ⟨_, htxs, hnd⟩ := validateBlockBody_eq_ok_iff.mp hbody
  rw [exactOutputs, exactInputs_eq_sum _ hnd]
  apply List.sum_le_sum
  intro tx htx
  exact exactTotal_le_of_validateTransaction (htxs tx htx) (hlt tx htx)

/-! ### A block for given outputs

One unspent output per transaction, of the amount that the transaction's outputs
have modulo `2 ^ 64`. -/

/-- The identifiers of the funding outputs: the position is the length. -/
def fundingId (i : ℕ) : UTxOId := ⟨⟨⟨List.replicate i 0⟩⟩, 0⟩

theorem fundingId_lt {i j : ℕ} (h : i < j) : fundingId i < fundingId j := by
  refine Or.inl ?_
  change List.replicate i (0 : UInt8) < List.replicate j 0
  induction i generalizing j with
  | zero =>
      obtain ⟨k, rfl⟩ := Nat.exists_eq_succ_of_ne_zero h.ne'
      exact List.nil_lt_cons _ _
  | succ i ih =>
      obtain ⟨k, rfl⟩ := Nat.exists_eq_succ_of_ne_zero (Nat.ne_of_gt (Nat.zero_lt_of_lt h))
      rw [List.replicate_succ, List.replicate_succ]
      exact List.cons_lt_cons_iff.mpr (Or.inr ⟨rfl, ih (Nat.lt_of_succ_lt_succ h)⟩)

theorem fundingId_injective : Function.Injective fundingId := by
  intro i j h
  have hbytes : List.replicate i (0 : UInt8) = List.replicate j 0 :=
    congrArg (fun u : UTxOId => u.unUTxOId.1.hash.bytes) h
  simpa using congrArg List.length hbytes

def fundingOutput (outputs : List TxOutput) (i : ℕ) : UTxO :=
  { uId := fundingId i
    uAddress := ⟨[]⟩
    uAmount := ⟨UInt64.ofNat (exactTotal outputs)⟩
    uData := none }

theorem pairwise_fundingId (outs : List (List TxOutput)) :
    (outs.zipIdx.map fun p => (fundingId p.2, fundingOutput p.1 p.2)).Pairwise
      fun a b => a.1 < b.1 := by
  have hrange : (outs.zipIdx.map Prod.snd).Pairwise (· < ·) := by
    rw [List.zipIdx_map_snd]
    exact List.pairwise_lt_range'
  rw [List.pairwise_map] at hrange ⊢
  exact hrange.imp fundingId_lt

/-- The chain state in which every list of outputs has its funding output. -/
def fundingChain (outs : List (List TxOutput)) : ChainState :=
  { csUtxoSet :=
      ⟨⟨outs.zipIdx.map fun p => (fundingId p.2, fundingOutput p.1 p.2), pairwise_fundingId outs⟩⟩
    csConsensus := ⟨⟨[]⟩⟩
    csTipHash := Merkle.emptyTreeHash
    csTipNumber := ⟨0⟩ }

def fundedTransactions (outs : List (List TxOutput)) : List Transaction :=
  outs.zipIdx.map fun p => forgeTransaction ⟨Merkle.emptyTreeHash⟩ [⟨fundingId p.2⟩] p.1 ⟨[]⟩

theorem lookup_fundingId {outs : List (List TxOutput)} {p : List TxOutput × ℕ}
    (hp : p ∈ outs.zipIdx) :
    AscMap.lookup (fundingId p.2) (fundingChain outs).csUtxoSet.unUTxOSet =
      some (fundingOutput p.1 p.2) :=
  AscMap.lookup_eq_some_of_mem UTxOId.lt_irrefl (List.mem_map_of_mem hp)

theorem toNat_amountAt_fundingId {outs : List (List TxOutput)} {p : List TxOutput × ℕ}
    (hp : p ∈ outs.zipIdx) :
    (amountAt (fundingChain outs).csUtxoSet (fundingId p.2)).toNat =
      exactTotal p.1 % 2 ^ 64 := by
  rw [amountAt, lookup_fundingId hp]
  exact UInt64.toNat_ofNat'

theorem txOutputs_fundedTransactions (outs : List (List TxOutput)) :
    (fundedTransactions outs).map Transaction.txOutputs = outs := by
  rw [fundedTransactions, List.map_map]
  exact List.zipIdx_map_fst 0 outs

theorem bodyInputIds_fundedTransactions (outs : List (List TxOutput)) :
    bodyInputIds (fundedTransactions outs) = outs.zipIdx.map fun p => fundingId p.2 := by
  rw [bodyInputIds, fundedTransactions, List.flatMap_map]
  exact List.flatMap_pure_eq_map _ _

theorem nodup_bodyInputIds_fundedTransactions (outs : List (List TxOutput)) :
    (bodyInputIds (fundedTransactions outs)).Nodup := by
  have hrange : (outs.zipIdx.map Prod.snd).Nodup := by
    rw [List.zipIdx_map_snd]
    exact List.nodup_range'
  have hids := hrange.map fundingId_injective
  rw [List.map_map] at hids
  rw [bodyInputIds_fundedTransactions]
  exact hids

theorem exactInputs_fundedTransactions (outs : List (List TxOutput)) :
    exactInputs (fundingChain outs).csUtxoSet (fundedTransactions outs) =
      (outs.map fun outputs => exactTotal outputs % 2 ^ 64).sum := by
  have hamounts : (outs.zipIdx.map fun p =>
      (amountAt (fundingChain outs).csUtxoSet (fundingId p.2)).toNat) =
      outs.zipIdx.map fun p => exactTotal p.1 % 2 ^ 64 :=
    List.map_congr_left fun p hp => toNat_amountAt_fundingId hp
  rw [exactInputs, List.sum_toFinset _ (nodup_bodyInputIds_fundedTransactions outs),
    bodyInputIds_fundedTransactions, List.map_map]
  calc ((outs.zipIdx.map fun p =>
        (amountAt (fundingChain outs).csUtxoSet (fundingId p.2)).toNat)).sum
      = ((outs.zipIdx.map Prod.fst).map fun outputs => exactTotal outputs % 2 ^ 64).sum := by
        rw [hamounts, List.map_map]
        rfl
    _ = (outs.map fun outputs => exactTotal outputs % 2 ^ 64).sum := by
        rw [List.zipIdx_map_fst]

def fundedBlock (outs : List (List TxOutput)) : Block :=
  let body : BlockBody := ⟨fundedTransactions outs, []⟩
  ⟨forgeHeader (fundingChain outs) body, body⟩

/-- The block is accepted whatever the outputs are: each 64-bit output total
equals the amount of its funding output. -/
theorem validateBlock_fundedBlock (outs : List (List TxOutput)) :
    validateBlock (fundingChain outs) (fundedBlock outs) ⟨0xFFFFFFFF⟩ =
      .ok (fundedBlock outs) := by
  refine validateBlock_forgeHeader (by change (0 : UInt64) ≠ maxWord64; decide) ?_ ?_
  · exact UInt32.le_iff_toNat_le.mpr (Nat.le_of_lt_succ (UInt32.toNat_lt _))
  · refine validateBlockBody_eq_ok_iff.mpr
      ⟨rfl, ?_, nodup_bodyInputIds_fundedTransactions outs⟩
    intro tx htx
    obtain ⟨p, hp, rfl⟩ := List.mem_map.mp htx
    refine validateTransaction_forgeTransaction ?_ (List.nodup_singleton _) ?_
    · intro input hinput
      rw [List.mem_singleton.mp hinput]
      exact ⟨_, lookup_fundingId hp⟩
    · rw [UInt64.le_iff_toNat_le, toNat_sumOutputs, toNat_sumInputs]
      change exactTotal p.1 % 2 ^ 64 ≤ ((amountAt (fundingChain outs).csUtxoSet
        (fundingId p.2)).toNat + 0) % 2 ^ 64
      rw [toNat_amountAt_fundingId hp, Nat.add_zero, Nat.mod_mod]

/-! ### Exactly when no value is created -/

/-- Given the output lists of a block's transactions, no accepted block with them
creates value if and only if each list totals less than `2 ^ 64`. -/
theorem exactOutputs_le_exactInputs_iff (outs : List (List TxOutput)) :
    (∀ chainState params block block',
        block.bBody.bbTransactions.map Transaction.txOutputs = outs →
        validateBlock chainState block params = .ok block' →
        exactOutputs block.bBody.bbTransactions ≤
          exactInputs chainState.csUtxoSet block.bBody.bbTransactions) ↔
      ∀ outputs ∈ outs, exactTotal outputs < 2 ^ 64 := by
  constructor
  · intro h
    by_contra hbig
    push Not at hbig
    obtain ⟨outputs, hmem, hle⟩ := hbig
    have hconserved := h _ _ (fundedBlock outs) _ (txOutputs_fundedTransactions outs)
      (validateBlock_fundedBlock outs)
    change exactOutputs (fundedTransactions outs) ≤
      exactInputs (fundingChain outs).csUtxoSet (fundedTransactions outs) at hconserved
    have hcreated : exactOutputs (fundedTransactions outs) = (outs.map exactTotal).sum := by
      conv_rhs => rw [← txOutputs_fundedTransactions outs, List.map_map]
      rfl
    rw [hcreated, exactInputs_fundedTransactions] at hconserved
    refine absurd hconserved (not_le_of_gt ?_)
    apply List.sum_lt_sum
    · exact fun o _ => Nat.mod_le _ _
    · exact ⟨outputs, hmem, (Nat.mod_lt _ (by decide)).trans_le hle⟩
  · rintro hlt chainState params block block' rfl h
    exact exactOutputs_le_of_validateBlock h fun tx htx => hlt _ (List.mem_map_of_mem htx)

/-! ### A block that mints -/

/-- An unspent output of amount 1. -/
def coinOutput : UTxO :=
  { uId := ⟨⟨⟨List.replicate 32 1⟩⟩, 0⟩
    uAddress := ⟨List.replicate 20 0xAA⟩
    uAmount := ⟨1⟩
    uData := none }

def coinChain : ChainState :=
  { csUtxoSet := ⟨AscMap.singleton coinOutput.uId coinOutput⟩
    csConsensus := ⟨⟨[]⟩⟩
    csTipHash := ⟨List.replicate 32 0⟩
    csTipNumber := ⟨0⟩ }

/-- A block that spends it for outputs of `2 ^ 63` and `2 ^ 63 + 1`. -/
def mintBlock : Block :=
  let owner : Address := ⟨List.replicate 20 0xBB⟩
  let tx := forgeTransaction ⟨⟨List.replicate 32 2⟩⟩ [⟨coinOutput.uId⟩]
    [⟨owner, ⟨0x8000000000000000⟩, none⟩, ⟨owner, ⟨0x8000000000000001⟩, none⟩]
    ⟨List.replicate 32 7⟩
  let body : BlockBody := ⟨[tx], []⟩
  ⟨forgeHeader coinChain body, body⟩

set_option maxRecDepth 20000 in
/-- The outputs total `2 ^ 64 + 1` and the input is worth 1, and the block is
accepted. -/
theorem mintBlock_accepted :
    validateBlock coinChain mintBlock ⟨1000000⟩ = .ok mintBlock ∧
      ¬ exactOutputs mintBlock.bBody.bbTransactions ≤
        exactInputs coinChain.csUtxoSet mintBlock.bBody.bbTransactions := by
  have hlookup : AscMap.lookup coinOutput.uId coinChain.csUtxoSet.unUTxOSet =
      some coinOutput := AscMap.lookup_singleton _ _
  constructor
  · refine validateBlock_forgeHeader (by decide) (by decide) ?_
    exact validateBlockBody_forgeTransaction hlookup (by decide) _
  · decide

end Protocol

end CryptoCoin
