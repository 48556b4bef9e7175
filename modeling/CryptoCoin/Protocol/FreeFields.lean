import CryptoCoin.Protocol.Producer
import Mathlib.Data.Fintype.EquivFin

/-!
# What a header is not checked for

`validateBlockHeader` compares the parent, the number and the version of a header and
verifies its signature, and `validateBlock` compares the Merkle root with the body. The
key for the signature is the validator's address in the header itself, and anyone can
compute a signature for it. All other fields are free: on every chain that can be
extended at all there are accepted headers with any state root and from any validator.

Validation uses neither the validator set of the chain state nor `computeStateRoot`, and
it never returns the error for a wrong state root.
-/

namespace CryptoCoin

namespace Protocol

/-! ### Headers with chosen fields -/

/-- The header with a signature that verifies under its own validator's address. -/
def forgeSigned (header : BlockHeader) : BlockHeader :=
  { header with
    bhSignature :=
      Crypto.forgeSignature (derivePublicKey header.bhValidator) (serializeHeader header) }

theorem verifyBlockSignature_forgeSigned (header : BlockHeader) :
    verifyBlockSignature (forgeSigned header) = true :=
  Crypto.verify_forgeSignature _ _

def forgeHeaderWith (chainState : ChainState) (body : BlockBody) (validator : ValidatorId)
    (stateRoot : Hash) : BlockHeader :=
  forgeSigned
    { bhParentHash := chainState.csTipHash
      bhBlockNumber := ⟨chainState.csTipNumber.unBlockNumber + 1⟩
      bhSlotNumber := ⟨0⟩
      bhEpochNumber := ⟨0⟩
      bhTimestamp := ⟨0⟩
      bhValidator := validator
      bhMerkleRoot := bodyRoot Crypto.hash body
      bhStateRoot := stateRoot
      bhNonce := 0
      bhVersion := 1
      bhSignature := ⟨[]⟩ }

theorem validateBlock_forgeHeaderWith {chainState : ChainState} {body : BlockBody}
    {params : ProtocolParams} (htip : chainState.csTipNumber.unBlockNumber ≠ maxWord64)
    (hsize : UInt32.ofNat (serializeBody body).length ≤ params.ppMaxBlockSize)
    (hbody : ∀ header, validateBlockBody chainState body header = .ok body)
    (validator : ValidatorId) (stateRoot : Hash) :
    validateBlock chainState ⟨forgeHeaderWith chainState body validator stateRoot, body⟩ params =
      .ok ⟨forgeHeaderWith chainState body validator stateRoot, body⟩ := by
  refine validateBlock_eq_ok_iff.mpr ⟨rfl, hsize, ?_, hbody _, rfl⟩
  refine validateBlockHeader_eq_ok_iff.mpr ⟨rfl, rfl, htip, rfl, ?_, rfl⟩
  exact verifyBlockSignature_forgeSigned _

theorem validateBlock_emptyBody {chainState : ChainState} (params : ProtocolParams)
    (htip : chainState.csTipNumber.unBlockNumber ≠ maxWord64)
    (validator : ValidatorId) (stateRoot : Hash) :
    validateBlock chainState
        ⟨forgeHeaderWith chainState ⟨[], []⟩ validator stateRoot, ⟨[], []⟩⟩ params =
      .ok ⟨forgeHeaderWith chainState ⟨[], []⟩ validator stateRoot, ⟨[], []⟩⟩ := by
  refine validateBlock_forgeHeaderWith htip ?_ (fun _ => rfl) validator stateRoot
  exact UInt32.zero_le

/-! ### The state root -/

/-- Accepted blocks with one body have one state root exactly when there are none:
when the tip has the last number, or the body is too large or not accepted. -/
theorem stateRoot_determined_iff (chainState : ChainState) (params : ProtocolParams)
    (body : BlockBody) :
    (∀ block block', validateBlock chainState block params = .ok block →
        validateBlock chainState block' params = .ok block' →
        block.bBody = body → block'.bBody = body →
        block.bHeader.bhStateRoot = block'.bHeader.bhStateRoot) ↔
      chainState.csTipNumber.unBlockNumber = maxWord64 ∨
        validateBlockSize body params ≠ .ok () ∨
        ∀ header, validateBlockBody chainState body header ≠ .ok body := by
  constructor
  · intro hsame
    by_contra hnone
    simp only [not_or, not_forall, not_not] at hnone
    obtain ⟨htip, hsize, header, hbody⟩ := hnone
    have hfits : UInt32.ofNat (serializeBody body).length ≤ params.ppMaxBlockSize :=
      UInt32.not_lt.mp (rejectIf_eq_ok_iff.mp hsize)
    -- the body is checked without the header, so every header will do
    have haccept := validateBlock_forgeHeaderWith htip hfits (fun _ => hbody) ⟨⟨[]⟩⟩
    have hroots : (⟨[0]⟩ : Hash) = ⟨[1]⟩ := hsame _ _ (haccept ⟨[0]⟩) (haccept ⟨[1]⟩) rfl rfl
    exact absurd hroots (by decide)
  · rintro hnone block block' haccept _ rfl _
    obtain ⟨_, hfits, hheader, hbody, _⟩ := validateBlock_eq_ok_iff.mp haccept
    rcases hnone with htip | hsize | hrefused
    · exact absurd htip (validateBlockHeader_eq_ok_iff.mp hheader).2.2.1
    · exact absurd (rejectIf_eq_ok_iff.mpr (UInt32.not_lt.mpr hfits)) hsize
    · exact absurd hbody (hrefused _)

/-- Two empty blocks after genesis with different state roots. -/
theorem emptyBlock_stateRoot_free :
    ∃ block block', validateBlock genesisChain block ⟨1000000⟩ = .ok block ∧
      validateBlock genesisChain block' ⟨1000000⟩ = .ok block' ∧
      block.bBody = block'.bBody ∧
      block.bHeader.bhStateRoot = ⟨List.replicate 32 0⟩ ∧
      block'.bHeader.bhStateRoot = ⟨List.replicate 32 1⟩ := by
  have htip : genesisChain.csTipNumber.unBlockNumber ≠ maxWord64 := by decide
  have haccept := validateBlock_emptyBody ⟨1000000⟩ htip ⟨⟨List.replicate 20 1⟩⟩
  exact ⟨_, _, haccept ⟨List.replicate 32 0⟩, haccept ⟨List.replicate 32 1⟩, rfl, rfl, rfl⟩

/-! ### The validator -/

/-- The producers of accepted blocks are validators of the chain exactly when the tip
has the last number, and no block is accepted. -/
theorem producers_validators_iff (chainState : ChainState) (params : ProtocolParams) :
    (∀ block, validateBlock chainState block params = .ok block →
        ∃ stake, (block.bHeader.bhValidator, stake) ∈
          chainState.csConsensus.csValidatorSet.unValidatorSet) ↔
      chainState.csTipNumber.unBlockNumber = maxWord64 := by
  constructor
  · intro hmember
    by_contra htip
    -- an address that no validator has
    obtain ⟨bytes, hbytes⟩ := Infinite.exists_notMem_finset
      (chainState.csConsensus.csValidatorSet.unValidatorSet.map fun v =>
        v.1.address.bytes).toFinset
    obtain ⟨stake, hmem⟩ :=
      hmember _ (validateBlock_emptyBody params htip ⟨⟨bytes⟩⟩ Merkle.emptyTreeHash)
    exact hbytes (List.mem_toFinset.mpr (List.mem_map.mpr ⟨_, hmem, rfl⟩))
  · intro htip block haccept
    obtain ⟨_, _, hheader, _, _⟩ := validateBlock_eq_ok_iff.mp haccept
    exact absurd htip (validateBlockHeader_eq_ok_iff.mp hheader).2.2.1

def oneValidatorChain : ChainState :=
  { genesisChain with csConsensus := ⟨⟨[(⟨⟨List.replicate 20 1⟩⟩, ⟨100⟩)]⟩⟩ }

/-- A block of somebody else on this chain. -/
theorem outsider_block_accepted :
    ∃ block, validateBlock oneValidatorChain block ⟨1000000⟩ = .ok block ∧
      block.bHeader.bhValidator = ⟨⟨List.replicate 20 2⟩⟩ ∧
      ¬ ∃ stake, (block.bHeader.bhValidator, stake) ∈
        oneValidatorChain.csConsensus.csValidatorSet.unValidatorSet := by
  have htip : oneValidatorChain.csTipNumber.unBlockNumber ≠ maxWord64 := by decide
  have haccept := validateBlock_emptyBody ⟨1000000⟩ htip ⟨⟨List.replicate 20 2⟩⟩
    Merkle.emptyTreeHash
  refine ⟨_, haccept, rfl, ?_⟩
  rintro ⟨stake, hmem⟩
  rw [oneValidatorChain, List.mem_singleton, Prod.mk.injEq] at hmem
  exact absurd hmem.1 (by decide)

end Protocol

end CryptoCoin
