import CryptoCoin.Protocol.Types

/-!
# Serializers

The serializers of `CryptoCoin.Protocol.Block`. Every record is the bare
concatenation of its fields: words are big-endian of their width, hashes and
addresses are their bytes, and lists carry neither a count nor a separator.
-/

namespace CryptoCoin

namespace Protocol

/-! ### Words -/

/-- The loop of `serializeWord64`: the byte at position `n` is cut out by a
division by `2 ^ (8 * n)`. -/
def serializeWord64From (w : UInt64) : ℕ → ByteString
  | 0 => []
  | n + 1 => (w / UInt64.ofNat (2 ^ (8 * n))).toUInt8 :: serializeWord64From w n

def serializeWord64 (w : UInt64) : ByteString := serializeWord64From w 8

def serializeWord32 (w : UInt32) : ByteString :=
  [(w >>> 24).toUInt8, (w >>> 16).toUInt8, (w >>> 8).toUInt8, w.toUInt8]

def serializeWord8 (w : UInt8) : ByteString := [w]

/-- The `round` of the source: to the nearest second, halves to the even one,
taken modulo `2 ^ 64`. -/
def Timestamp.round (t : Timestamp) : UInt64 :=
  let n := t.picoseconds.tdiv (10 ^ 12)
  let r := t.picoseconds.tmod (10 ^ 12)
  let m := if r < 0 then n - 1 else n + 1
  UInt64.ofInt (if 2 * |r| < 10 ^ 12 then n
    else if 2 * |r| = 10 ^ 12 then if n % 2 = 0 then n else m
    else m)

def serializeTimestamp (t : Timestamp) : ByteString := serializeWord64 t.round

theorem serializeWord64From_eq (w : UInt64) {n : ℕ} (hn : n ≤ 8) :
    serializeWord64From w n = Words.beBytes n w.toNat := by
  induction n with
  | zero => rfl
  | succ n ih =>
      have hlt : (2 : ℕ) ^ (8 * n) < UInt64.size :=
        (Nat.pow_lt_pow_right (by norm_num) (by omega : 8 * n < 64)).trans_le (by decide)
      have hbyte : (w / UInt64.ofNat (2 ^ (8 * n))).toUInt8 =
          UInt8.ofNat (w.toNat / 256 ^ n) := by
        apply UInt8.toNat_inj.mp
        rw [UInt64.toNat_toUInt8, UInt64.toNat_div, UInt64.toNat_ofNat_of_lt' hlt,
          Words.two_pow_eight_mul, UInt8.toNat_ofNat']
      rw [serializeWord64From, Words.beBytes, ih (by omega), hbyte]

theorem serializeWord64_eq (w : UInt64) : serializeWord64 w = Words.beBytes 8 w.toNat :=
  serializeWord64From_eq w le_rfl

@[simp] theorem length_serializeWord64 (w : UInt64) : (serializeWord64 w).length = 8 := rfl

@[simp] theorem length_serializeWord32 (w : UInt32) : (serializeWord32 w).length = 4 := rfl

@[simp] theorem length_serializeTimestamp (t : Timestamp) :
    (serializeTimestamp t).length = 8 := rfl

theorem serializeWord64_inj {v w : UInt64} (h : serializeWord64 v = serializeWord64 w) :
    v = w := by
  rw [serializeWord64_eq, serializeWord64_eq] at h
  exact UInt64.toNat_inj.mp (Words.beBytes_inj v.toNat_lt w.toNat_lt h)

theorem serializeWord32_eq (w : UInt32) : serializeWord32 w = Words.beBytes 4 w.toNat := by
  have hbyte : ∀ k : UInt32, k.toNat < 32 → (w >>> k).toUInt8 =
      UInt8.ofNat (w.toNat / 2 ^ k.toNat) := by
    intro k hk
    apply UInt8.toNat_inj.mp
    rw [UInt32.toNat_toUInt8, UInt32.toNat_shiftRight, Nat.mod_eq_of_lt hk,
      Nat.shiftRight_eq_div_pow, UInt8.toNat_ofNat']
  have hlast : w.toUInt8 = UInt8.ofNat (w.toNat / 256 ^ 0) := by
    apply UInt8.toNat_inj.mp
    rw [UInt32.toNat_toUInt8, pow_zero, Nat.div_one, UInt8.toNat_ofNat']
  rw [serializeWord32, hbyte 24 (by decide), hbyte 16 (by decide), hbyte 8 (by decide), hlast]
  rfl

theorem serializeWord32_inj {v w : UInt32} (h : serializeWord32 v = serializeWord32 w) :
    v = w := by
  rw [serializeWord32_eq, serializeWord32_eq] at h
  exact UInt32.toNat_inj.mp (Words.beBytes_inj v.toNat_lt w.toNat_lt h)

theorem serializeWord64_zero : serializeWord64 0 = List.replicate 8 0 := by
  rw [serializeWord64_eq]
  exact Words.beBytes_zero 8

/-! ### Newtypes -/

def serializeHash (h : Hash) : ByteString := h.bytes

def serializeAddress (a : Address) : ByteString := a.bytes

def serializeValidatorId (v : ValidatorId) : ByteString := v.address.bytes

def serializeAmount (a : Amount) : ByteString := serializeWord64 a.unAmount

def serializeTxId (t : TxId) : ByteString := t.hash.bytes

def serializeUTxOId (u : UTxOId) : ByteString :=
  serializeTxId u.unUTxOId.1 ++ serializeWord64 u.unUTxOId.2

/-! ### Transactions -/

def serializeInput (input : TxInput) : ByteString := serializeUTxOId input.tiUtxoId

def serializeInputs (inputs : List TxInput) : ByteString := inputs.flatMap serializeInput

def serializeOutput (output : TxOutput) : ByteString :=
  serializeAddress output.toAddress ++ serializeAmount output.toAmount

def serializeOutputs (outputs : List TxOutput) : ByteString :=
  outputs.flatMap serializeOutput

/-- The bytes of a transaction that are hashed and signed. -/
def Transaction.serializeForSigning (tx : Transaction) : ByteString :=
  serializeTxId tx.txId ++ serializeInputs tx.txInputs ++ serializeOutputs tx.txOutputs ++
    serializeWord64 tx.txNonce ++ serializeAmount tx.txFee

def serializeTransaction (tx : Transaction) : ByteString := tx.serializeForSigning

def serializeTransactions (txs : List Transaction) : ByteString :=
  txs.flatMap serializeTransaction

/-! ### Blocks -/

def serializeVote (vote : Vote) : ByteString :=
  serializeValidatorId vote.vValidator ++ serializeHash vote.vBlockHash ++
    serializeWord64 vote.vRound ++ serializeWord8 (UInt8.ofNat vote.vVoteType.fromEnum)

def serializeVotes (votes : List Vote) : ByteString := votes.flatMap serializeVote

def serializeBody (body : BlockBody) : ByteString :=
  serializeTransactions body.bbTransactions ++ serializeVotes body.bbVotes

def serializeHeader (h : BlockHeader) : ByteString :=
  serializeHash h.bhParentHash ++ serializeWord64 h.bhBlockNumber.unBlockNumber ++
    serializeWord64 h.bhSlotNumber.unSlotNumber ++
    serializeWord64 h.bhEpochNumber.unEpochNumber ++ serializeTimestamp h.bhTimestamp ++
    serializeValidatorId h.bhValidator ++ serializeHash h.bhMerkleRoot.unMerkleRoot ++
    serializeHash h.bhStateRoot ++ serializeWord64 h.bhNonce ++ serializeWord32 h.bhVersion

/-- The bytes of a header that are signed. The source lists the fields of
`serializeHeader` once more, which has no signature either. -/
def BlockHeader.serializeForSigning (h : BlockHeader) : ByteString := serializeHeader h

def serializeUTxOEntry (uid : UTxOId) (utxo : UTxO) : ByteString :=
  serializeUTxOId uid ++ serializeAddress utxo.uAddress ++ serializeAmount utxo.uAmount

end Protocol

end CryptoCoin
