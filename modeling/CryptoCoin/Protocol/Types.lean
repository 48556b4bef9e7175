import CryptoCoin.Library.AscMap
import CryptoCoin.Library.Words

/-!
# Protocol types

The records and newtypes of `CryptoCoin.Protocol.Types`, under their source
names. A `ByteString` is the list of its bytes, `Word8`, `Word32` and `Word64`
are the unsigned words of that width, and `Map UTxOId UTxO` is an ascending
association list. Lengths are not part of the source types: a `Hash` or an
`Address` holds a byte string of any length here as there.

A source expression of type `Either ε α` has a third outcome, a runtime error
(`succ` of the largest word). `Result` carries it beside the `Left` values.
-/

namespace CryptoCoin

namespace Protocol

abbrev ByteString := List UInt8

/-! ### Outcomes -/

/-- Why an `Either`-valued expression gives no `Right`: it returns `Left e`, or
its evaluation raises a runtime error. -/
inductive Failure (ε : Type) where
  | left (e : ε)
  | bottom (message : String)
  deriving DecidableEq

abbrev Result (ε α : Type) := Except (Failure ε) α

/-- The source's `if c then Left e else Right ()`. -/
def rejectIf {ε : Type} (c : Prop) [Decidable c] (e : ε) : Result ε Unit :=
  if c then .error (.left e) else .ok ()

/-- The source's `mapM_` in `Either`: the first failure is the result. -/
def mapM_ {ε α β : Type} (f : α → Result ε β) : List α → Result ε Unit
  | [] => .ok ()
  | a :: l => do
      let _ ← f a
      mapM_ f l

theorem bind_eq_ok_iff {ε α β : Type} {x : Result ε α} {f : α → Result ε β} {b : β} :
    (x >>= f) = .ok b ↔ ∃ a, x = .ok a ∧ f a = .ok b := by
  cases x with
  | error e => simp [bind, Except.bind]
  | ok a => simp [bind, Except.bind]

@[simp] theorem rejectIf_eq_ok_iff {ε : Type} {c : Prop} [Decidable c] {e : ε} {u : Unit} :
    rejectIf c e = .ok u ↔ ¬ c := by
  by_cases h : c <;> simp [rejectIf, h]

theorem mapM_eq_ok_iff {ε α β : Type} {f : α → Result ε β} {l : List α} {u : Unit} :
    mapM_ f l = .ok u ↔ ∀ a ∈ l, ∃ b, f a = .ok b := by
  induction l with
  | nil => simp [mapM_]
  | cons a l ih =>
      rw [mapM_, bind_eq_ok_iff, List.forall_mem_cons, ← ih]
      exact ⟨fun ⟨b, hb, hl⟩ => ⟨⟨b, hb⟩, hl⟩, fun ⟨⟨b, hb⟩, hl⟩ => ⟨b, hb, hl⟩⟩

theorem bind_eq_error_iff {ε α β : Type} {x : Result ε α} {f : α → Result ε β} {e : Failure ε} :
    (x >>= f) = .error e ↔ x = .error e ∨ ∃ a, x = .ok a ∧ f a = .error e := by
  cases x with
  | error e => simp [bind, Except.bind]
  | ok a => simp [bind, Except.bind]

@[simp] theorem rejectIf_eq_error_iff {ε : Type} {c : Prop} [Decidable c] {e : ε}
    {failure : Failure ε} : rejectIf c e = .error failure ↔ c ∧ failure = .left e := by
  by_cases h : c <;> simp [rejectIf, h, eq_comm]

theorem exists_of_mapM_eq_error {ε α β : Type} {f : α → Result ε β} {l : List α} {e : Failure ε}
    (h : mapM_ f l = .error e) : ∃ a ∈ l, f a = .error e := by
  induction l with
  | nil => cases h
  | cons a l ih =>
      rw [mapM_, bind_eq_error_iff] at h
      rcases h with hfirst | ⟨b, _, hrest⟩
      · exact ⟨a, List.mem_cons_self, hfirst⟩
      · obtain ⟨a', hmem, hfail⟩ := ih hrest
        exact ⟨a', List.mem_cons_of_mem a hmem, hfail⟩

/-! ### Cryptographic types -/

structure Hash where
  bytes : ByteString
  deriving DecidableEq

structure Signature where
  bytes : ByteString
  deriving DecidableEq

structure PublicKey where
  bytes : ByteString
  deriving DecidableEq

structure PrivateKey where
  bytes : ByteString
  deriving DecidableEq

structure Address where
  bytes : ByteString
  deriving DecidableEq

structure MerkleRoot where
  unMerkleRoot : Hash
  deriving DecidableEq

structure ValidatorId where
  address : Address
  deriving DecidableEq

/-! ### Numbers -/

structure BlockNumber where
  unBlockNumber : UInt64
  deriving DecidableEq

structure SlotNumber where
  unSlotNumber : UInt64
  deriving DecidableEq

structure EpochNumber where
  unEpochNumber : UInt64
  deriving DecidableEq

structure Amount where
  unAmount : UInt64
  deriving DecidableEq

structure Stake where
  unStake : UInt64
  deriving DecidableEq

/-- `maxBound :: Word64`. -/
def maxWord64 : UInt64 := 0xFFFFFFFFFFFFFFFF

theorem toNat_add_one {w : UInt64} (h : w ≠ maxWord64) : (w + 1).toNat = w.toNat + 1 := by
  have hne : w.toNat ≠ 18446744073709551615 := fun heq => h (UInt64.toNat_inj.mp heq)
  have hlt := w.toNat_lt
  rw [UInt64.toNat_add, UInt64.toNat_one, Nat.mod_eq_of_lt]
  omega

/-- The derived `succ`, which raises an error at `maxBound`. -/
def BlockNumber.succ {ε : Type} (n : BlockNumber) : Result ε BlockNumber :=
  if n.unBlockNumber = maxWord64 then
    .error (.bottom "Enum.succ{Word64}: tried to take `succ' of maxBound")
  else
    .ok ⟨n.unBlockNumber + 1⟩

theorem BlockNumber.succ_eq_ok_iff {ε : Type} {n m : BlockNumber} :
    (n.succ : Result ε BlockNumber) = .ok m ↔
      n.unBlockNumber ≠ maxWord64 ∧ m = ⟨n.unBlockNumber + 1⟩ := by
  unfold BlockNumber.succ
  by_cases h : n.unBlockNumber = maxWord64
  · simp [h]
  · simp [h, eq_comm]

/-- A `POSIXTime`, in picoseconds since the epoch. -/
structure Timestamp where
  picoseconds : ℤ
  deriving DecidableEq

/-! ### Transactions -/

structure TxId where
  hash : Hash
  deriving DecidableEq

structure UTxOId where
  unUTxOId : TxId × UInt64
  deriving DecidableEq

/-- The derived order: lexicographic on the transaction's bytes, then by the
position. -/
instance : LT UTxOId where
  lt a b := a.unUTxOId.1.hash.bytes < b.unUTxOId.1.hash.bytes ∨
    (a.unUTxOId.1 = b.unUTxOId.1 ∧ a.unUTxOId.2 < b.unUTxOId.2)

theorem UTxOId.lt_irrefl (u : UTxOId) : ¬ u < u := by
  rintro (h | ⟨_, h⟩)
  · exact List.lt_irrefl _ h
  · exact UInt64.lt_irrefl _ h

structure TxInput where
  tiUtxoId : UTxOId
  deriving DecidableEq

structure TxOutput where
  toAddress : Address
  toAmount : Amount
  toData : Option ByteString
  deriving DecidableEq

structure Transaction where
  txId : TxId
  txInputs : List TxInput
  txOutputs : List TxOutput
  txSignature : Signature
  txPublicKey : PublicKey
  txNonce : UInt64
  txFee : Amount
  deriving DecidableEq

structure UTxO where
  uId : UTxOId
  uAddress : Address
  uAmount : Amount
  uData : Option ByteString
  deriving DecidableEq

structure UTxOSet where
  unUTxOSet : AscMap UTxOId UTxO

/-! ### Blocks -/

inductive VoteType where
  | votePrepare
  | voteCommit
  deriving DecidableEq

/-- `fromEnum` of a vote type: the position of its constructor. -/
def VoteType.fromEnum : VoteType → ℕ
  | .votePrepare => 0
  | .voteCommit => 1

structure Vote where
  vValidator : ValidatorId
  vBlockHash : Hash
  vRound : UInt64
  vVoteType : VoteType
  deriving DecidableEq

structure BlockHeader where
  bhParentHash : Hash
  bhBlockNumber : BlockNumber
  bhSlotNumber : SlotNumber
  bhEpochNumber : EpochNumber
  bhTimestamp : Timestamp
  bhValidator : ValidatorId
  bhMerkleRoot : MerkleRoot
  bhStateRoot : Hash
  bhNonce : UInt64
  bhVersion : UInt32
  bhSignature : Signature
  deriving DecidableEq

structure BlockBody where
  bbTransactions : List Transaction
  bbVotes : List Vote
  deriving DecidableEq

structure Block where
  bHeader : BlockHeader
  bBody : BlockBody
  deriving DecidableEq

/-! ### Chain state and parameters -/

structure ValidatorSet where
  unValidatorSet : List (ValidatorId × Stake)
  deriving DecidableEq

structure ConsensusState where
  csValidatorSet : ValidatorSet
  deriving DecidableEq

structure ChainState where
  csUtxoSet : UTxOSet
  csConsensus : ConsensusState
  csTipHash : Hash
  csTipNumber : BlockNumber

structure ProtocolParams where
  ppMaxBlockSize : UInt32
  deriving DecidableEq

structure GenesisConfig where
  gcInitialUtxos : List (Address × Amount)
  deriving DecidableEq

/-! ### Errors -/

inductive ValidationError where
  | invalidBlockStructure (reason : String)
  | invalidSignature
  | insufficientFunds (totalInput totalOutput : Amount)
  | doubleSpend (utxo : UTxOId)
  | blockTooLarge (actual limit : UInt32)
  | merkleRootMismatch (declared computed : MerkleRoot)
  deriving DecidableEq

inductive ProtocolError where
  | cryptoError (reason : String)
  deriving DecidableEq

end Protocol

end CryptoCoin
