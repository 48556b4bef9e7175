import CryptoCoin.Protocol.FirstLeaf
import CryptoCoin.Protocol.FreeFields
import CryptoCoin.Protocol.StateRoot

/-!
# What the roots of a header hold

Under the repository's own hash a root is the first leaf, and a leaf is the beginning of
the bytes it is computed from. The state root is then the transaction hash of the least
identifier in the set, and the body root is the hash of the first transaction. Neither
votes nor further transactions can be checked against a header, and a header that is
accepted once is accepted with other bodies too (`validateBlock_swapBody_iff`).
-/

namespace CryptoCoin

namespace Protocol

theorem computeRoot_map {α : Type} {f : α → Hash} {l : List α}
    (hsized : ∀ x ∈ l, (f x).bytes.length = 32) :
    Merkle.computeRoot Crypto.hash (l.map f) = (l.head?.map f).getD Merkle.emptyTreeHash := by
  cases l with
  | nil => rfl
  | cons x l =>
      have hvalues : ∀ h ∈ (x :: l).map f, h.bytes.length = 32 := List.forall_mem_map.mpr hsized
      exact Merkle.computeRoot_hash hvalues

/-! ### The state root -/

/-- The transaction hash of the least identifier, or zeros for the empty set. -/
def UTxOSet.firstTxId (s : UTxOSet) : Hash :=
  (s.unUTxOSet.toAscList.head?.map fun entry => entry.1.unUTxOId.1.hash).getD
    Merkle.emptyTreeHash

theorem hash_serializeUTxOEntry {uid : UTxOId} {utxo : UTxO}
    (htxId : uid.unUTxOId.1.hash.bytes.length = 32) (haddress : utxo.uAddress.bytes.length = 20) :
    Crypto.hash (serializeUTxOEntry uid utxo) = uid.unUTxOId.1.hash := by
  have hbytes : serializeUTxOEntry uid utxo = uid.unUTxOId.1.hash.bytes ++
      (serializeWord64 uid.unUTxOId.2 ++ (utxo.uAddress.bytes ++
        serializeWord64 utxo.uAmount.unAmount)) := by
    simp only [serializeUTxOEntry, serializeUTxOId, serializeTxId, serializeAddress,
      serializeAmount, List.append_assoc]
  rw [hbytes, Merkle.hash_append htxId (by simp [haddress])]

theorem computeStateRoot_eq_firstTxId {s : UTxOSet} (hs : s.Sized) :
    computeStateRoot s = s.firstTxId := by
  have hleaves : computeStateRoot s = Merkle.computeRoot Crypto.hash
      (s.unUTxOSet.toAscList.map fun entry => entry.1.unUTxOId.1.hash) := by
    rw [computeStateRoot]
    congr 1
    apply List.map_congr_left
    intro entry hentry
    exact hash_serializeUTxOEntry (hs.txId entry hentry) (hs.uAddress entry hentry)
  rw [hleaves, computeRoot_map hs.txId, UTxOSet.firstTxId]

/-- Two sets have the same state root exactly when their least identifiers name the same
transaction. -/
theorem computeStateRoot_eq_iff {s s' : UTxOSet} (hs : s.Sized) (hs' : s'.Sized) :
    computeStateRoot s = computeStateRoot s' ↔ s.firstTxId = s'.firstTxId := by
  rw [computeStateRoot_eq_firstTxId hs, computeStateRoot_eq_firstTxId hs']

def outputAt (index amount : UInt64) : UTxO :=
  { uId := ⟨⟨⟨List.replicate 32 1⟩⟩, index⟩
    uAddress := ⟨List.replicate 20 7⟩
    uAmount := ⟨amount⟩
    uData := none }

def singleOutput (index amount : UInt64) : UTxOSet :=
  ⟨AscMap.singleton (outputAt index amount).uId (outputAt index amount)⟩

theorem sized_singleOutput (index amount : UInt64) : (singleOutput index amount).Sized :=
  UTxOSet.sized_singleton rfl rfl

/-- Another output with another amount. -/
theorem computeStateRoot_eq_singleOutput :
    (singleOutput 0 5).coins ≠ (singleOutput 3 9).coins ∧
      computeStateRoot (singleOutput 0 5) = computeStateRoot (singleOutput 3 9) :=
  ⟨by decide, (computeStateRoot_eq_iff (sized_singleOutput 0 5) (sized_singleOutput 3 9)).mpr rfl⟩

/-! ### The body root -/

/-- The hash of the first transaction, or zeros for a body without transactions. -/
def BlockBody.firstHash (body : BlockBody) : Hash :=
  (body.bbTransactions.head?.map (txHash Crypto.hash)).getD Merkle.emptyTreeHash

theorem bodyRoot_eq_firstHash (body : BlockBody) :
    bodyRoot Crypto.hash body = ⟨body.firstHash⟩ := by
  have hroot : ∀ hashes, (Merkle.computeRoot Crypto.hash hashes).bytes.length = 32 :=
    Merkle.length_computeRoot _ Crypto.length_hash
  have hhash : ∀ tx ∈ body.bbTransactions, (txHash Crypto.hash tx).bytes.length = 32 :=
    fun _ _ => Crypto.length_hash _
  rw [bodyRoot, Merkle.combineRoots, computeMerkleRoot, computeMerkleRoot,
    Merkle.combineHashes_hash (hroot _) (hroot _), computeRoot_map hhash, BlockBody.firstHash]

theorem validateBlockSize_eq_ok_iff {body : BlockBody} {params : ProtocolParams} :
    validateBlockSize body params = .ok () ↔
      UInt32.ofNat (serializeBody body).length ≤ params.ppMaxBlockSize := by
  rw [validateBlockSize, rejectIf_eq_ok_iff, UInt32.not_lt]

/-- The header of an accepted block is accepted with exactly those bodies that pass the
size and body checks and have a first transaction with the same hash. -/
theorem validateBlock_swapBody_iff {chainState : ChainState} {block : Block}
    {params : ProtocolParams} (haccept : validateBlock chainState block params = .ok block)
    (body : BlockBody) :
    validateBlock chainState ⟨block.bHeader, body⟩ params = .ok ⟨block.bHeader, body⟩ ↔
      validateBlockSize body params = .ok () ∧
        validateBlockBody chainState body block.bHeader = .ok body ∧
        body.firstHash = block.bBody.firstHash := by
  obtain ⟨_, _, hheader, _, hroot⟩ := validateBlock_eq_ok_iff.mp haccept
  rw [bodyRoot_eq_firstHash] at hroot
  rw [validateBlock_eq_ok_iff, bodyRoot_eq_firstHash, ← hroot, MerkleRoot.mk.injEq,
    ← validateBlockSize_eq_ok_iff]
  constructor
  · rintro ⟨_, hsize, _, hbody, hfirst⟩
    exact ⟨hsize, hbody, hfirst⟩
  · rintro ⟨hsize, hbody, hfirst⟩
    exact ⟨rfl, hsize, hheader, hbody, hfirst⟩

def addedVote : Vote :=
  { vValidator := ⟨⟨List.replicate 20 1⟩⟩
    vBlockHash := ⟨List.replicate 32 1⟩
    vRound := 1
    vVoteType := .voteCommit }

/-- One header after genesis with two bodies. -/
theorem validateBlock_swapBody_addedVote :
    ∃ header, validateBlock genesisChain ⟨header, ⟨[], []⟩⟩ ⟨1000000⟩ =
        .ok ⟨header, ⟨[], []⟩⟩ ∧
      validateBlock genesisChain ⟨header, ⟨[], [addedVote]⟩⟩ ⟨1000000⟩ =
        .ok ⟨header, ⟨[], [addedVote]⟩⟩ := by
  have htip : genesisChain.csTipNumber.unBlockNumber ≠ maxWord64 := by decide
  have haccept := validateBlock_emptyBody ⟨1000000⟩ htip ⟨⟨[]⟩⟩ ⟨[]⟩
  exact ⟨_, haccept, (validateBlock_swapBody_iff haccept ⟨[], [addedVote]⟩).mpr
    ⟨by decide, rfl, rfl⟩⟩

end Protocol

end CryptoCoin
