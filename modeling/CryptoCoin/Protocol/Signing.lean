import CryptoCoin.Protocol.Serialize

/-!
# What a transaction signature fixes

`Transaction.serializeForSigning` concatenates inputs of 40 bytes and outputs of
28 bytes without counts, and leaves `toData` out. Its value determines the
transaction only up to these two things: the boundary between inputs and outputs
can move by 280 bytes, and the data of an output is free.
-/

namespace CryptoCoin

namespace Protocol

structure Transaction.Sized (tx : Transaction) : Prop where
  txId : tx.txId.hash.bytes.length = 32
  txInputs : ∀ input ∈ tx.txInputs, input.tiUtxoId.unUTxOId.1.hash.bytes.length = 32
  txOutputs : ∀ output ∈ tx.txOutputs, output.toAddress.bytes.length = 20

/-- The two transactions do the same: all that a signature should fix. -/
def Transaction.SameEffect (t₁ t₂ : Transaction) : Prop :=
  t₁.txId = t₂.txId ∧
    t₁.txInputs.map TxInput.tiUtxoId = t₂.txInputs.map TxInput.tiUtxoId ∧
    t₁.txOutputs = t₂.txOutputs ∧ t₁.txNonce = t₂.txNonce ∧ t₁.txFee = t₂.txFee

/-! ### Widths -/

theorem length_serializeInput {input : TxInput}
    (h : input.tiUtxoId.unUTxOId.1.hash.bytes.length = 32) :
    (serializeInput input).length = 40 := by
  rw [serializeInput, serializeUTxOId, List.length_append, length_serializeWord64,
    serializeTxId, h]

theorem length_serializeOutput {output : TxOutput} (h : output.toAddress.bytes.length = 20) :
    (serializeOutput output).length = 28 := by
  rw [serializeOutput, serializeAmount, List.length_append, length_serializeWord64,
    serializeAddress, h]

theorem Transaction.Sized.length_serializeForSigning {tx : Transaction} (h : tx.Sized) :
    tx.serializeForSigning.length = 40 * tx.txInputs.length + 28 * tx.txOutputs.length + 48 := by
  have hin : (serializeInputs tx.txInputs).length = 40 * tx.txInputs.length :=
    Words.length_flatMap_of_width fun input hi => length_serializeInput (h.txInputs input hi)
  have hout : (serializeOutputs tx.txOutputs).length = 28 * tx.txOutputs.length :=
    Words.length_flatMap_of_width fun output ho => length_serializeOutput (h.txOutputs output ho)
  simp only [Transaction.serializeForSigning, List.length_append, hin, hout, serializeTxId,
    h.txId, length_serializeWord64, serializeAmount]
  omega

/-! ### Reading the fields back -/

theorem serializeInput_inj {i₁ i₂ : TxInput}
    (h₁ : i₁.tiUtxoId.unUTxOId.1.hash.bytes.length = 32)
    (h₂ : i₂.tiUtxoId.unUTxOId.1.hash.bytes.length = 32)
    (h : serializeInput i₁ = serializeInput i₂) : i₁.tiUtxoId = i₂.tiUtxoId := by
  obtain ⟨⟨⟨⟨⟨b₁⟩⟩, n₁⟩⟩⟩ := i₁
  obtain ⟨⟨⟨⟨⟨b₂⟩⟩, n₂⟩⟩⟩ := i₂
  obtain ⟨hbytes, hindex⟩ := List.append_inj h (h₁.trans h₂.symm)
  have hb : b₁ = b₂ := hbytes
  have hn : n₁ = n₂ := serializeWord64_inj hindex
  rw [hb, hn]

theorem serializeOutput_inj {o₁ o₂ : TxOutput} (h₁ : o₁.toAddress.bytes.length = 20)
    (h₂ : o₂.toAddress.bytes.length = 20) (h : serializeOutput o₁ = serializeOutput o₂) :
    (o₁.toAddress, o₁.toAmount) = (o₂.toAddress, o₂.toAmount) := by
  obtain ⟨⟨a₁⟩, ⟨m₁⟩, d₁⟩ := o₁
  obtain ⟨⟨a₂⟩, ⟨m₂⟩, d₂⟩ := o₂
  obtain ⟨haddress, hamount⟩ := List.append_inj h (h₁.trans h₂.symm)
  have ha : a₁ = a₂ := haddress
  have hm : m₁ = m₂ := serializeWord64_inj hamount
  rw [ha, hm]

theorem outputs_eq_of_map_eq {l₁ l₂ : List TxOutput}
    (hpaid : l₁.map (fun o => (o.toAddress, o.toAmount)) =
      l₂.map fun o => (o.toAddress, o.toAmount))
    (hdata : l₁.map TxOutput.toData = l₂.map TxOutput.toData) : l₁ = l₂ := by
  have hinj : Function.Injective
      fun o : TxOutput => ((o.toAddress, o.toAmount), o.toData) := by
    rintro ⟨a₁, m₁, d₁⟩ ⟨a₂, m₂, d₂⟩ h
    simpa [and_assoc] using h
  apply List.map_injective_iff.mpr hinj
  calc l₁.map (fun o => ((o.toAddress, o.toAmount), o.toData))
      = (l₁.map fun o => (o.toAddress, o.toAmount)).zip (l₁.map TxOutput.toData) :=
        List.zip_map'.symm
    _ = (l₂.map fun o => (o.toAddress, o.toAmount)).zip (l₂.map TxOutput.toData) := by
        rw [hpaid, hdata]
    _ = l₂.map fun o => ((o.toAddress, o.toAmount), o.toData) := List.zip_map'

theorem sameEffect_of_serializeForSigning_eq {t₁ t₂ : Transaction} (h₁ : t₁.Sized)
    (h₂ : t₂.Sized) (hin : t₁.txInputs.length = t₂.txInputs.length)
    (hdata : t₁.txOutputs.map TxOutput.toData = t₂.txOutputs.map TxOutput.toData)
    (h : t₁.serializeForSigning = t₂.serializeForSigning) : t₁.SameEffect t₂ := by
  have hout : t₁.txOutputs.length = t₂.txOutputs.length := by
    simpa using congrArg List.length hdata
  simp only [Transaction.serializeForSigning, List.append_assoc] at h
  obtain ⟨hid, h⟩ := List.append_inj h (h₁.txId.trans h₂.txId.symm)
  obtain ⟨hinputs, h⟩ := Words.flatMap_append_inj
    (fun i hi => length_serializeInput (h₁.txInputs i hi))
    (fun i hi => length_serializeInput (h₂.txInputs i hi))
    (fun i hi j hj => serializeInput_inj (h₁.txInputs i hi) (h₂.txInputs j hj)) hin h
  obtain ⟨houtputs, h⟩ := Words.flatMap_append_inj
    (fun o ho => length_serializeOutput (h₁.txOutputs o ho))
    (fun o ho => length_serializeOutput (h₂.txOutputs o ho))
    (fun o ho p hp => serializeOutput_inj (h₁.txOutputs o ho) (h₂.txOutputs p hp)) hout h
  obtain ⟨hnonce, hfee⟩ := List.append_inj h rfl
  refine ⟨?_, hinputs, outputs_eq_of_map_eq houtputs hdata, serializeWord64_inj hnonce, ?_⟩
  · exact congrArg (fun b => TxId.mk (Hash.mk b)) hid
  · exact congrArg Amount.mk (serializeWord64_inj hfee)

/-! ### Transactions of zero bytes -/

/-- The transaction of a given shape in which every serialized field is zero. -/
def zeroTransaction (inputs : ℕ) (data : List (Option ByteString)) : Transaction :=
  { txId := ⟨⟨List.replicate 32 0⟩⟩
    txInputs := List.replicate inputs ⟨⟨⟨⟨List.replicate 32 0⟩⟩, 0⟩⟩
    txOutputs := data.map fun d => ⟨⟨List.replicate 20 0⟩, ⟨0⟩, d⟩
    txSignature := ⟨[]⟩
    txPublicKey := ⟨[]⟩
    txNonce := 0
    txFee := ⟨0⟩ }

theorem sized_zeroTransaction (inputs : ℕ) (data : List (Option ByteString)) :
    (zeroTransaction inputs data).Sized where
  txId := rfl
  txInputs := by
    intro input hinput
    rw [List.eq_of_mem_replicate hinput]
    rfl
  txOutputs := by
    intro output houtput
    obtain ⟨d, _, rfl⟩ := List.mem_map.mp houtput
    rfl

theorem serializeForSigning_zeroTransaction (inputs : ℕ) (data : List (Option ByteString)) :
    (zeroTransaction inputs data).serializeForSigning =
      List.replicate (40 * inputs + 28 * data.length + 48) 0 := by
  have hin : serializeInputs (zeroTransaction inputs data).txInputs =
      List.replicate (40 * inputs) 0 := by
    rw [serializeInputs, Words.flatMap_eq_replicate_zero (w := 40), zeroTransaction,
      List.length_replicate]
    intro input hinput
    rw [List.eq_of_mem_replicate hinput]
    change List.replicate 32 0 ++ serializeWord64 0 = List.replicate (32 + 8) 0
    rw [serializeWord64_zero, List.replicate_append_replicate]
  have hout : serializeOutputs (zeroTransaction inputs data).txOutputs =
      List.replicate (28 * data.length) 0 := by
    rw [serializeOutputs, Words.flatMap_eq_replicate_zero (w := 28), zeroTransaction,
      List.length_map]
    intro output houtput
    obtain ⟨d, _, rfl⟩ := List.mem_map.mp houtput
    change List.replicate 20 0 ++ serializeWord64 0 = List.replicate (20 + 8) 0
    rw [serializeWord64_zero, List.replicate_append_replicate]
  have hid : serializeTxId (zeroTransaction inputs data).txId = List.replicate 32 0 := rfl
  have hnonce : serializeWord64 (zeroTransaction inputs data).txNonce = List.replicate 8 0 :=
    serializeWord64_zero
  have hfee : serializeAmount (zeroTransaction inputs data).txFee = List.replicate 8 0 :=
    serializeWord64_zero
  rw [Transaction.serializeForSigning, hid, hin, hout, hnonce, hfee]
  simp only [List.replicate_append_replicate]
  congr 1
  omega

/-! ### Exactly when the signed bytes are unambiguous -/

/-- Signed bytes that agree come from transactions with the same effect, for
transactions with given numbers of inputs and given data in their outputs, if
and only if these shapes agree or have different total widths. -/
theorem serializeForSigning_unambiguous_iff (i₁ i₂ : ℕ) (d₁ d₂ : List (Option ByteString)) :
    (∀ t₁ t₂ : Transaction, t₁.Sized → t₂.Sized →
        t₁.txInputs.length = i₁ → t₂.txInputs.length = i₂ →
        t₁.txOutputs.map TxOutput.toData = d₁ → t₂.txOutputs.map TxOutput.toData = d₂ →
        t₁.serializeForSigning = t₂.serializeForSigning → t₁.SameEffect t₂) ↔
      (10 * i₁ + 7 * d₁.length = 10 * i₂ + 7 * d₂.length → i₁ = i₂ ∧ d₁ = d₂) := by
  constructor
  · intro h hwidth
    have hdata : ∀ (i : ℕ) (d : List (Option ByteString)),
        (zeroTransaction i d).txOutputs.map TxOutput.toData = d := by
      intro i d
      simp [zeroTransaction, Function.comp_def]
    have hbytes : (zeroTransaction i₁ d₁).serializeForSigning =
        (zeroTransaction i₂ d₂).serializeForSigning := by
      rw [serializeForSigning_zeroTransaction, serializeForSigning_zeroTransaction]
      congr 1
      omega
    obtain ⟨_, hin, hout, _⟩ := h _ _ (sized_zeroTransaction i₁ d₁)
      (sized_zeroTransaction i₂ d₂) List.length_replicate List.length_replicate
      (hdata i₁ d₁) (hdata i₂ d₂) hbytes
    constructor
    · simpa [zeroTransaction] using congrArg List.length hin
    · rw [← hdata i₁ d₁, hout, hdata i₂ d₂]
  · rintro h t₁ t₂ h₁ h₂ rfl rfl rfl rfl hbytes
    have hlen := congrArg List.length hbytes
    rw [h₁.length_serializeForSigning, h₂.length_serializeForSigning] at hlen
    obtain ⟨hin, hdata⟩ := h (by rw [List.length_map, List.length_map]; omega)
    exact sameEffect_of_serializeForSigning_eq h₁ h₂ hin hdata hbytes

/-! ### Two transactions with one signature -/

/-- A payment of 5 out of one input, with the given data in its output. -/
def payment (data : Option ByteString) : Transaction :=
  { txId := ⟨⟨List.replicate 32 2⟩⟩
    txInputs := [⟨⟨⟨⟨List.replicate 32 1⟩⟩, 0⟩⟩]
    txOutputs := [⟨⟨List.replicate 20 0xBB⟩, ⟨5⟩, data⟩]
    txSignature := ⟨[]⟩
    txPublicKey := ⟨List.replicate 32 7⟩
    txNonce := 0
    txFee := ⟨0⟩ }

theorem sized_payment (data : Option ByteString) : (payment data).Sized where
  txId := rfl
  txInputs := by
    intro input hinput
    rw [List.mem_singleton.mp hinput]
    rfl
  txOutputs := by
    intro output houtput
    rw [List.mem_singleton.mp houtput]
    rfl

/-- The data of an output can be exchanged under the signature, and so can seven
inputs and ten outputs. -/
theorem payment_serializeForSigning :
    ((payment none).Sized ∧ (payment (some [1])).Sized ∧
      (payment none).serializeForSigning = (payment (some [1])).serializeForSigning ∧
      ¬ (payment none).SameEffect (payment (some [1]))) ∧
    ((zeroTransaction 7 []).Sized ∧ (zeroTransaction 0 (List.replicate 10 none)).Sized ∧
      (zeroTransaction 7 []).serializeForSigning =
        (zeroTransaction 0 (List.replicate 10 none)).serializeForSigning ∧
      ¬ (zeroTransaction 7 []).SameEffect (zeroTransaction 0 (List.replicate 10 none))) := by
  constructor
  · refine ⟨sized_payment _, sized_payment _, rfl, ?_⟩
    rintro ⟨_, _, hout, _⟩
    exact absurd hout (by simp [payment])
  · refine ⟨sized_zeroTransaction _ _, sized_zeroTransaction _ _, ?_, ?_⟩
    · rw [serializeForSigning_zeroTransaction, serializeForSigning_zeroTransaction]
      rfl
    · rintro ⟨_, hin, _⟩
      exact absurd (congrArg List.length hin) (by simp [zeroTransaction])

end Protocol

end CryptoCoin
