import CryptoCoin.Protocol.Conservation

/-!
# Fees

A transaction names a fee, and its signature covers it. `validateTransaction` compares the
outputs with the inputs and does not look at the fee, so the outputs may use up the inputs
whatever the fee is. For any inputs that can be spent, every fee but 0 can be left unpaid
(`fees_paid_iff`).
-/

namespace CryptoCoin

namespace Protocol

def inputTotal (utxoSet : UTxOSet) (inputs : List TxInput) : ℕ :=
  ((inputs.map TxInput.tiUtxoId).map fun uid => (amountAt utxoSet uid).toNat).sum

structure Spendable (utxoSet : UTxOSet) (inputs : List TxInput) : Prop where
  unspent : ∀ input ∈ inputs,
    ∃ utxo, AscMap.lookup input.tiUtxoId utxoSet.unUTxOSet = some utxo
  nodup : (inputs.map TxInput.tiUtxoId).Nodup
  total_le : inputTotal utxoSet inputs ≤ 2 ^ 64 - 1

/-- A transaction with a chosen fee that pays the whole total of its inputs to one address,
with a signature that verifies under its own key. -/
def payAll (utxoSet : UTxOSet) (inputs : List TxInput) (fee : Amount) : Transaction :=
  let tx : Transaction :=
    { txId := ⟨⟨List.replicate 32 2⟩⟩
      txInputs := inputs
      txOutputs :=
        [⟨⟨List.replicate 20 0xBB⟩, ⟨UInt64.ofNat (inputTotal utxoSet inputs)⟩, none⟩]
      txSignature := ⟨[]⟩
      txPublicKey := ⟨List.replicate 32 7⟩
      txNonce := 0
      txFee := fee }
  { tx with txSignature := Crypto.forgeSignature tx.txPublicKey tx.serializeForSigning }

section PayAll

variable {utxoSet : UTxOSet} {inputs : List TxInput}

theorem exactTotal_payAll (h : inputTotal utxoSet inputs ≤ 2 ^ 64 - 1) (fee : Amount) :
    exactTotal (payAll utxoSet inputs fee).txOutputs = inputTotal utxoSet inputs := by
  have htotal : exactTotal (payAll utxoSet inputs fee).txOutputs =
      (UInt64.ofNat (inputTotal utxoSet inputs)).toNat + 0 := rfl
  rw [htotal, Nat.add_zero, UInt64.toNat_ofNat', Nat.mod_eq_of_lt (by omega)]

theorem validateTransaction_payAll (h : Spendable utxoSet inputs) (fee : Amount) :
    validateTransaction utxoSet (payAll utxoSet inputs fee) =
      .ok (payAll utxoSet inputs fee) := by
  refine validateTransaction_eq_ok_iff.mpr ⟨rfl, ?_, h.unspent, h.nodup, ?_⟩
  · exact Crypto.verify_forgeSignature _ _
  · have hinputs : (sumInputs (payAll utxoSet inputs fee) utxoSet.unUTxOSet).unAmount.toNat =
        inputTotal utxoSet inputs % 2 ^ 64 := toNat_sumInputs utxoSet _
    rw [UInt64.le_iff_toNat_le, toNat_sumOutputs, exactTotal_payAll h.total_le, hinputs]

end PayAll

/-- Given the unspent outputs, the inputs and the fee, every accepted transaction pays its fee
exactly when the fee is 0 or no transaction can spend the inputs. -/
theorem fees_paid_iff (utxoSet : UTxOSet) (inputs : List TxInput) (fee : Amount) :
    (∀ tx, validateTransaction utxoSet tx = .ok tx → tx.txInputs = inputs → tx.txFee = fee →
        inputTotal utxoSet inputs ≤ 2 ^ 64 - 1 → exactTotal tx.txOutputs ≤ 2 ^ 64 - 1 →
        exactTotal tx.txOutputs + fee.unAmount.toNat ≤ inputTotal utxoSet inputs) ↔
      fee.unAmount.toNat = 0 ∨ ¬ Spendable utxoSet inputs := by
  constructor
  · intro hpaid
    by_contra hfee
    rw [not_or, not_not] at hfee
    obtain ⟨hpos, hspend⟩ := hfee
    have htotal := exactTotal_payAll hspend.total_le fee
    have hle := hpaid _ (validateTransaction_payAll hspend fee) rfl rfl hspend.total_le
      (htotal.trans_le hspend.total_le)
    rw [htotal] at hle
    omega
  · rintro hfee tx hvalid rfl rfl hinputs houtputs
    have hle := exactTotal_le_of_validateTransaction hvalid (by omega)
    rcases hfee with hzero | hnot
    · rw [hzero, Nat.add_zero]
      exact hle
    · obtain ⟨_, _, hunspent, hnodup, _⟩ := validateTransaction_eq_ok_iff.mp hvalid
      exact absurd ⟨hunspent, hnodup, hinputs⟩ hnot

/-- A transaction that spends the coin of amount 1 in full and names a fee of 1. -/
def unpaidFee : Transaction := payAll coinChain.csUtxoSet [⟨coinOutput.uId⟩] ⟨1⟩

theorem unpaidFee_accepted :
    validateTransaction coinChain.csUtxoSet unpaidFee = .ok unpaidFee ∧
      inputTotal coinChain.csUtxoSet unpaidFee.txInputs = 1 ∧
      exactTotal unpaidFee.txOutputs = 1 ∧
      ¬ exactTotal unpaidFee.txOutputs + unpaidFee.txFee.unAmount.toNat ≤
        inputTotal coinChain.csUtxoSet unpaidFee.txInputs := by
  have htotal : inputTotal coinChain.csUtxoSet unpaidFee.txInputs = 1 := by decide
  have hspend : Spendable coinChain.csUtxoSet unpaidFee.txInputs := by
    refine ⟨?_, List.nodup_singleton _, by rw [htotal]; decide⟩
    intro input hinput
    rw [List.mem_singleton.mp hinput]
    exact ⟨coinOutput, AscMap.lookup_singleton _ _⟩
  have houtputs : exactTotal unpaidFee.txOutputs = 1 :=
    (exactTotal_payAll hspend.total_le ⟨1⟩).trans htotal
  refine ⟨validateTransaction_payAll hspend ⟨1⟩, htotal, houtputs, ?_⟩
  rw [houtputs, htotal]
  decide

end Protocol

end CryptoCoin
