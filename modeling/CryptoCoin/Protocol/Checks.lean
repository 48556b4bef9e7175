import CryptoCoin.Protocol.Outputs

/-!
# What the checks let through

Three checks that are not what they are taken for.

`validateTransaction` has no check that a transaction has inputs and outputs. What it asks
of every input holds of none, and the totals of no inputs and no outputs are both 0. A
transaction without inputs can be accepted exactly for the outputs whose 64-bit total is 0.

The error `VEDoubleSpend` names a missing input rightly. For a repeated one it names the
first input of the transaction, whichever is repeated.

`validateBlockSize` counts the bytes of a body modulo `2 ^ 32`.
-/

namespace CryptoCoin

namespace Protocol

/-! ### Transactions without inputs or outputs -/

/-- Given the outputs, every accepted transaction with them has an input and an output
exactly when their total is not 0 in 64 bits. -/
theorem accepted_ne_nil_iff (utxoSet : UTxOSet) (outputs : List TxOutput) :
    (∀ tx, tx.txOutputs = outputs → validateTransaction utxoSet tx = .ok tx →
        tx.txInputs ≠ [] ∧ tx.txOutputs ≠ []) ↔
      exactTotal outputs % 2 ^ 64 ≠ 0 := by
  constructor
  · intro hboth hzero
    have haccept : validateTransaction utxoSet (forgeTransaction ⟨⟨[]⟩⟩ [] outputs ⟨[]⟩) =
        .ok (forgeTransaction ⟨⟨[]⟩⟩ [] outputs ⟨[]⟩) := by
      refine validateTransaction_forgeTransaction ?_ List.nodup_nil ?_
      · intro input hinput
        cases hinput
      · rw [UInt64.le_iff_toNat_le, toNat_sumOutputs]
        exact hzero.trans_le (Nat.zero_le _)
    exact (hboth _ rfl haccept).1 rfl
  · rintro htotal tx rfl haccept
    constructor
    · intro hinputs
      obtain ⟨_, _, _, _, hsum⟩ := validateTransaction_eq_ok_iff.mp haccept
      rw [UInt64.le_iff_toNat_le, toNat_sumOutputs, toNat_sumInputs, hinputs] at hsum
      exact htotal (Nat.le_zero.mp hsum)
    · intro houtputs
      rw [houtputs] at htotal
      exact htotal rfl

def emptyTransaction : Transaction :=
  forgeTransaction ⟨⟨List.replicate 32 2⟩⟩ [] [] ⟨List.replicate 32 7⟩

/-- It is accepted whatever is unspent, so also a second time. -/
theorem emptyTransaction_accepted :
    emptyTransaction.txInputs = [] ∧ emptyTransaction.txOutputs = [] ∧
      ∀ utxoSet, validateTransaction utxoSet emptyTransaction = .ok emptyTransaction := by
  refine ⟨rfl, rfl, ?_⟩
  intro utxoSet
  refine validateTransaction_forgeTransaction ?_ List.nodup_nil (UInt64.le_refl 0)
  intro input hinput
  cases hinput

/-! ### The error for a double spend -/

theorem validateInput_eq_error_iff {utxoMap : AscMap UTxOId UTxO} {input : TxInput}
    {e : Failure ValidationError} :
    validateInput utxoMap input = .error e ↔
      AscMap.lookup input.tiUtxoId utxoMap = none ∧ e = .left (.doubleSpend input.tiUtxoId) := by
  cases h : AscMap.lookup input.tiUtxoId utxoMap <;> simp [validateInput, h, eq_comm]

/-- The repetition check fails with the first identifier. It has one, as nothing is
repeated in the empty list. -/
theorem validateDistinct_eq_error_iff {inputIds : List UTxOId} {e : Failure ValidationError} :
    validateDistinct inputIds = .error e ↔
      ¬ inputIds.Nodup ∧ ∃ uid, inputIds.head? = some uid ∧ e = .left (.doubleSpend uid) := by
  rw [validateDistinct]
  by_cases h : inputIds.Nodup
  · rw [if_neg (fun hlen => length_ne_card_toFinset_iff.mp hlen h)]
    simp [h]
  · rw [if_pos (length_ne_card_toFinset_iff.mpr h)]
    cases inputIds with
    | nil => exact absurd List.nodup_nil h
    | cons uid rest => simp [rejectDoubleSpend, h, eq_comm]

theorem validateTransaction_eq_error_iff {utxoSet : UTxOSet} {tx : Transaction}
    {e : Failure ValidationError} :
    validateTransaction utxoSet tx = .error e ↔
      (¬ Crypto.verify tx.txPublicKey tx.txSignature tx.serializeForSigning = true ∧
          e = .left .invalidSignature) ∨
        Crypto.verify tx.txPublicKey tx.txSignature tx.serializeForSigning = true ∧
          (mapM_ (validateInput utxoSet.unUTxOSet) tx.txInputs = .error e ∨
            (∀ input ∈ tx.txInputs,
                ∃ utxo, AscMap.lookup input.tiUtxoId utxoSet.unUTxOSet = some utxo) ∧
              (validateDistinct (tx.txInputs.map TxInput.tiUtxoId) = .error e ∨
                (tx.txInputs.map TxInput.tiUtxoId).Nodup ∧
                  (sumInputs tx utxoSet.unUTxOSet).unAmount < (sumOutputs tx).unAmount ∧
                    e = .left (.insufficientFunds (sumInputs tx utxoSet.unUTxOSet)
                      (sumOutputs tx)))) := by
  simp only [validateTransaction, bind_eq_error_iff, rejectIf_eq_error_iff, rejectIf_eq_ok_iff,
    mapM_eq_ok_iff, validateInput_eq_ok_iff, validateDistinct_eq_ok_iff, not_not, exists_const,
    reduceCtorEq, and_false, or_false]

/-- If the transaction is refused for a double spend, the error names an input that is not
unspent or occurs twice; and no runtime error occurs. -/
def NamesDoubleSpend (utxoSet : UTxOSet) (tx : Transaction) : Prop :=
  (∀ uid, validateTransaction utxoSet tx = .error (.left (.doubleSpend uid)) →
      uid ∈ tx.txInputs.map TxInput.tiUtxoId ∧
        (AscMap.lookup uid utxoSet.unUTxOSet = none ∨
          2 ≤ (tx.txInputs.map TxInput.tiUtxoId).count uid)) ∧
    ∀ message, validateTransaction utxoSet tx ≠ .error (.bottom message)

theorem validateTransaction_eq_doubleSpend {utxoSet : UTxOSet} {tx : Transaction} {uid : UTxOId}
    (h : validateTransaction utxoSet tx = .error (.left (.doubleSpend uid))) :
    uid ∈ tx.txInputs.map TxInput.tiUtxoId ∧
      (AscMap.lookup uid utxoSet.unUTxOSet = none ∨
        (∀ input ∈ tx.txInputs,
            ∃ utxo, AscMap.lookup input.tiUtxoId utxoSet.unUTxOSet = some utxo) ∧
          ¬ (tx.txInputs.map TxInput.tiUtxoId).Nodup ∧
          (tx.txInputs.map TxInput.tiUtxoId).head? = some uid) := by
  rcases validateTransaction_eq_error_iff.mp h with
    ⟨_, he⟩ | ⟨_, hinput | ⟨hall, hdistinct | hfunds⟩⟩
  · cases he
  · obtain ⟨input, hmem, hfail⟩ := exists_of_mapM_eq_error hinput
    obtain ⟨hnone, he⟩ := validateInput_eq_error_iff.mp hfail
    cases he
    exact ⟨List.mem_map_of_mem hmem, Or.inl hnone⟩
  · obtain ⟨hrepeated, first, hfirst, he⟩ := validateDistinct_eq_error_iff.mp hdistinct
    cases he
    exact ⟨List.mem_of_head? hfirst, Or.inr ⟨hall, hrepeated, hfirst⟩⟩
  · cases hfunds.2.2

theorem validateTransaction_ne_bottom (utxoSet : UTxOSet) (tx : Transaction) (message : String) :
    validateTransaction utxoSet tx ≠ .error (.bottom message) := by
  intro h
  rcases validateTransaction_eq_error_iff.mp h with ⟨_, he⟩ | ⟨_, hinput | ⟨_, hdistinct | hfunds⟩⟩
  · cases he
  · obtain ⟨input, _, hfail⟩ := exists_of_mapM_eq_error hinput
    cases (validateInput_eq_error_iff.mp hfail).2
  · obtain ⟨_, _, _, he⟩ := validateDistinct_eq_error_iff.mp hdistinct
    cases he
  · cases hfunds.2.2

/-- For given inputs, the error names a double spend rightly in every transaction exactly
when an input is missing, or no input is repeated, or the first one is. -/
theorem namesDoubleSpend_iff (utxoSet : UTxOSet) (inputs : List TxInput) :
    (∀ tx, tx.txInputs = inputs → NamesDoubleSpend utxoSet tx) ↔
      (∃ input ∈ inputs, AscMap.lookup input.tiUtxoId utxoSet.unUTxOSet = none) ∨
        (inputs.map TxInput.tiUtxoId).Nodup ∨
        ∃ uid, (inputs.map TxInput.tiUtxoId).head? = some uid ∧
          2 ≤ (inputs.map TxInput.tiUtxoId).count uid := by
  constructor
  · intro hnames
    by_contra hcond
    simp only [not_or, not_exists, not_and, ← ne_eq, Option.ne_none_iff_exists'] at hcond
    obtain ⟨hall, hrepeated, hfirst⟩ := hcond
    have hne : inputs.map TxInput.tiUtxoId ≠ [] := by
      intro hnil
      rw [hnil] at hrepeated
      exact hrepeated List.nodup_nil
    obtain ⟨uid, rest, hcons⟩ := List.exists_cons_of_ne_nil hne
    have hhead : (inputs.map TxInput.tiUtxoId).head? = some uid := by
      rw [hcons]
      rfl
    have herror : validateTransaction utxoSet (forgeTransaction ⟨⟨[]⟩⟩ inputs [] ⟨[]⟩) =
        .error (.left (.doubleSpend uid)) := by
      refine validateTransaction_eq_error_iff.mpr (Or.inr ⟨?_, Or.inr ⟨hall, Or.inl ?_⟩⟩)
      · exact Crypto.verify_forgeSignature _ _
      · exact validateDistinct_eq_error_iff.mpr ⟨hrepeated, uid, hhead, rfl⟩
    obtain ⟨hmem, hnone | htwice⟩ := (hnames _ rfl).1 uid herror
    · obtain ⟨input, hinput, rfl⟩ := List.mem_map.mp hmem
      obtain ⟨utxo, hutxo⟩ := hall input hinput
      rw [hutxo] at hnone
      cases hnone
    · exact hfirst uid hhead htwice
  · rintro hcond tx rfl
    refine ⟨?_, validateTransaction_ne_bottom utxoSet tx⟩
    intro uid h
    obtain ⟨hmem, hnone | ⟨hall, hrepeated, hhead⟩⟩ := validateTransaction_eq_doubleSpend h
    · exact ⟨hmem, Or.inl hnone⟩
    · refine ⟨hmem, Or.inr ?_⟩
      rcases hcond with ⟨input, hinput, hnone⟩ | hnodup | ⟨first, hfirst, htwice⟩
      · obtain ⟨utxo, hutxo⟩ := hall input hinput
        rw [hutxo] at hnone
        cases hnone
      · exact absurd hnodup hrepeated
      · rw [hhead, Option.some.injEq] at hfirst
        rwa [hfirst]

/-- A transaction that spends the first coin once and the second one twice. -/
def repeatedSpend : Transaction :=
  forgeTransaction ⟨⟨List.replicate 32 3⟩⟩
    [⟨coinOutput.uId⟩, ⟨otherCoin.uId⟩, ⟨otherCoin.uId⟩] [] ⟨List.replicate 32 7⟩

/-- The error names the first coin, which is unspent and spent once. -/
theorem repeatedSpend_misnamed :
    validateTransaction twoCoinChain.csUtxoSet repeatedSpend =
        .error (.left (.doubleSpend coinOutput.uId)) ∧
      AscMap.lookup coinOutput.uId twoCoinChain.csUtxoSet.unUTxOSet = some coinOutput ∧
      (repeatedSpend.txInputs.map TxInput.tiUtxoId).count coinOutput.uId = 1 := by
  have hfirst : AscMap.lookup coinOutput.uId twoCoinChain.csUtxoSet.unUTxOSet =
      some coinOutput := by decide
  have hsecond : AscMap.lookup otherCoin.uId twoCoinChain.csUtxoSet.unUTxOSet =
      some otherCoin := by decide
  refine ⟨?_, hfirst, by decide⟩
  refine validateTransaction_eq_error_iff.mpr (Or.inr ⟨?_, Or.inr ⟨?_, Or.inl ?_⟩⟩)
  · exact Crypto.verify_forgeSignature _ _
  · intro input hinput
    have hcases : input = ⟨coinOutput.uId⟩ ∨ input = ⟨otherCoin.uId⟩ := by
      simpa [repeatedSpend, forgeTransaction] using hinput
    rcases hcases with rfl | rfl
    · exact ⟨coinOutput, hfirst⟩
    · exact ⟨otherCoin, hsecond⟩
  · exact validateDistinct_eq_error_iff.mpr ⟨by decide, coinOutput.uId, rfl, rfl⟩

/-! ### The size of a block -/

/-- The size is compared exactly when the body has less than `2 ^ 32` bytes, or so many that
it is refused even modulo `2 ^ 32`. -/
theorem validateBlockSize_exact_iff (body : BlockBody) (params : ProtocolParams) :
    (validateBlockSize body params = .ok () ↔
        (serializeBody body).length ≤ params.ppMaxBlockSize.toNat) ↔
      (serializeBody body).length < 2 ^ 32 ∨
        params.ppMaxBlockSize.toNat < (serializeBody body).length % 2 ^ 32 := by
  have hlimit : params.ppMaxBlockSize.toNat < 2 ^ 32 := params.ppMaxBlockSize.toNat_lt
  have haccept : validateBlockSize body params = .ok () ↔
      (serializeBody body).length % 2 ^ 32 ≤ params.ppMaxBlockSize.toNat := by
    rw [validateBlockSize, rejectIf_eq_ok_iff, UInt32.not_lt, UInt32.le_iff_toNat_le,
      UInt32.toNat_ofNat']
  rw [haccept]
  omega

def sizedVote : Vote := ⟨⟨⟨List.replicate 20 1⟩⟩, ⟨List.replicate 32 2⟩, 0, .voteCommit⟩

def votesBody (n : ℕ) : BlockBody := ⟨[], List.replicate n sizedVote⟩

theorem length_serializeBody_votesBody (n : ℕ) :
    (serializeBody (votesBody n)).length = 61 * n := by
  have hwidth : ∀ vote ∈ List.replicate n sizedVote, (serializeVote vote).length = 61 := by
    intro vote hvote
    rw [List.eq_of_mem_replicate hvote]
    rfl
  rw [serializeBody, votesBody, serializeTransactions, List.flatMap_nil, List.nil_append,
    serializeVotes, Words.length_flatMap_of_width hwidth, List.length_replicate]

/-- A body of 4294967300 bytes, which is 4 modulo `2 ^ 32`. -/
theorem votesBody_accepted :
    (serializeBody (votesBody 70409300)).length = 2 ^ 32 + 4 ∧
      validateBlockSize (votesBody 70409300) ⟨1000000⟩ = .ok () := by
  have hlength : (serializeBody (votesBody 70409300)).length = 2 ^ 32 + 4 := by
    rw [length_serializeBody_votesBody]
    norm_num
  refine ⟨hlength, ?_⟩
  rw [validateBlockSize, rejectIf_eq_ok_iff, hlength]
  decide

end Protocol

end CryptoCoin
