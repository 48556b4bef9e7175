import CryptoCoin.Protocol.Keys
import CryptoCoin.Protocol.Producer
import CryptoCoin.Protocol.RoundTrip

/-!
# What the use of a key discloses

The hash keeps the first 32 bytes of its input, masked at most by a hash of what stands
behind the first block. When those bytes are a secret and the rest is known, the digest
gives the secret away (`unmask_sha3_256`).

Keys from seeds of 32 bytes begin with the seed, and every function that takes a private
key hashes it in front of public bytes. So a signature, an output of the verifiable random
function and a ciphertext for a known text each disclose the seed, and the public key is the
seed (`key_disclosed`). Every block discloses the key of its producer
(`createBlock_discloses`).

The verification of random outputs has no use for the seed either: proofs of the function
itself are all rejected, and for any output there is an accepted one
(`vrf_accepts_forged`).
-/

namespace CryptoCoin

namespace Protocol

namespace Crypto

/-! ### Random functions and commitments -/

def vrfProve (privKey : PrivateKey) (input : ByteString) : ByteString :=
  let hash := sha3_256 (privKey.bytes ++ input)
  let proof := ed25519Sign privKey.bytes hash
  hash ++ proof

/-- The input has no part in the verification. -/
def vrfVerify (pubKey : PublicKey) (_input proof : ByteString) : Option ByteString :=
  let (hash, signature) := proof.splitAt 32
  if ed25519Verify pubKey.bytes signature hash then some hash else none

def vrfProofToHash (proof : ByteString) : Hash := ⟨proof.take 32⟩

def commit (value blinding : ByteString) : Hash := hash (value ++ blinding)

/-- `open` in the source. -/
def openCommitment (commitment : Hash) (value blinding : ByteString) : Bool :=
  commit value blinding == commitment

/-! ### Secrets in front of known bytes -/

/-- The first 32 bytes of an input, from the digest and the rest of the input. -/
def unmask (rest digest : ByteString) : ByteString :=
  if rest.length < 104 then digest else absorb digest (sha3_256 (rest.drop 104))

theorem unmask_sha3_256 {secret : ByteString} (hsecret : secret.length = 32)
    (rest : ByteString) : unmask rest (sha3_256 (secret ++ rest)) = secret := by
  rw [unmask, sha3_256_append hsecret]
  by_cases hshort : rest.length < 104
  · rw [if_pos hshort, if_pos hshort]
  · rw [if_neg hshort, if_neg hshort]
    exact (absorb_absorb_eq_iff (by simp [hsecret]) (by simp [hsecret])).mpr rfl

section Seed

variable {seed : ByteString} (hseed : seed.length = 32)

include hseed

theorem publicKey_eq_seed : (generateKeyPairFromSeed seed).2.bytes = seed := by
  rw [publicKey_eq, sha3_256_extended_of_length_le hseed.le, hseed, Nat.sub_self,
    List.replicate_zero, List.append_nil]

theorem unmask_ed25519Sign (msg : ByteString) :
    unmask (extended msg)
      ((ed25519Sign (generateKeyPairFromSeed seed).1.bytes msg).take 32) = seed := by
  have htake : (generateKeyPairFromSeed seed).1.bytes.take 32 = seed := by
    rw [privateKey_eq, List.take_append_of_le_length hseed.ge, List.take_of_length_le hseed.le]
  have hcommitment : (ed25519Sign (generateKeyPairFromSeed seed).1.bytes msg).take 32 =
      sha3_256 (seed ++ extended msg) := by
    simp only [ed25519Sign, take_sha3_512, htake]
    rw [List.take_append_of_le_length (by simp), List.take_of_length_le (by simp), extended,
      List.append_assoc]
  rw [hcommitment, unmask_sha3_256 hseed]

theorem unmask_vrfProve (input : ByteString) :
    unmask ((generateKeyPairFromSeed seed).2.bytes ++ input)
      (vrfProofToHash (vrfProve (generateKeyPairFromSeed seed).1 input)).bytes = seed := by
  have houtput : (vrfProofToHash (vrfProve (generateKeyPairFromSeed seed).1 input)).bytes =
      sha3_256 (seed ++ ((generateKeyPairFromSeed seed).2.bytes ++ input)) := by
    simp only [vrfProofToHash, vrfProve]
    rw [List.take_append_of_le_length (by simp), List.take_of_length_le (by simp), privateKey_eq,
      List.append_assoc]
  rw [houtput, unmask_sha3_256 hseed]

omit hseed in
/-- A known text of 32 bytes shows the key stream. -/
theorem take_absorb_encrypt (key nonce : ByteString) {p : ByteString} (hp : 32 ≤ p.length) :
    (absorb p (encryptWithSharedSecret key nonce p)).take 32 = sha3_256 (key ++ nonce) := by
  apply List.ext_getElem?
  intro i
  rcases lt_or_ge i 32 with hi | hi
  · have hin : i < p.length := by omega
    have hstream : (sha3_256 (key ++ nonce))[i]? =
        some ((sha3_256 (key ++ nonce)).getD (i % 32) 0) := by
      rw [Nat.mod_eq_of_lt hi, List.getD_eq_getElem?_getD,
        List.getElem?_eq_getElem (by rwa [length_sha3_256]), Option.getD_some]
    rw [List.getElem?_take_of_lt hi, absorb, List.getElem?_zipWith,
      getElem?_encryptWithSharedSecret, List.getElem?_eq_getElem hin, hstream]
    simp only [Option.map_some]
    rw [← UInt8.xor_assoc, UInt8.xor_self, UInt8.zero_xor]
  · rw [List.getElem?_eq_none, List.getElem?_eq_none]
    · simpa using hi
    · rw [List.length_take]
      omega

theorem unmask_encrypt (other nonce : ByteString) {p : ByteString} (hp : 32 ≤ p.length) :
    unmask nonce ((absorb p (encryptWithSharedSecret (generateSharedSecret
      (generateKeyPairFromSeed seed).1 (generateKeyPairFromSeed other).2) nonce p)).take 32) =
      seed := by
  rw [take_absorb_encrypt _ _ hp, generateSharedSecret_eq_seed hseed, unmask_sha3_256 hseed]

end Seed

/-- For keys from a seed of 32 bytes, the seed can be computed from the public key, from a
signature and its message, from a random output, its input and the public key, and from a
ciphertext, its nonce and a known text of 32 bytes. -/
theorem key_disclosed {seed : ByteString} (hseed : seed.length = 32) :
    (generateKeyPairFromSeed seed).2.bytes = seed ∧
      (∀ msg sig, sign (generateKeyPairFromSeed seed).1 msg = some sig →
        unmask (extended msg) (sig.bytes.take 32) = seed) ∧
      (∀ input, unmask ((generateKeyPairFromSeed seed).2.bytes ++ input)
        (vrfProofToHash (vrfProve (generateKeyPairFromSeed seed).1 input)).bytes = seed) ∧
      ∀ other nonce p, 32 ≤ p.length →
        unmask nonce ((absorb p (encryptWithSharedSecret (generateSharedSecret
          (generateKeyPairFromSeed seed).1 (generateKeyPairFromSeed other).2) nonce p)).take 32) =
          seed := by
  refine ⟨publicKey_eq_seed hseed, ?_, unmask_vrfProve hseed,
    fun other nonce p hp => unmask_encrypt hseed other nonce hp⟩
  intro msg sig hsign
  rw [sign_eq_some, Option.some.injEq] at hsign
  rw [← hsign]
  exact unmask_ed25519Sign hseed msg

theorem key_disclosed_seedOf :
    (seedOf 7).length = 32 ∧
      unmask (extended [1, 2, 3])
        ((ed25519Sign (generateKeyPairFromSeed (seedOf 7)).1.bytes [1, 2, 3]).take 32) =
        seedOf 7 :=
  have hseed : (seedOf 7).length = 32 := rfl
  ⟨hseed, (key_disclosed hseed).2.1 [1, 2, 3] _ (sign_eq_some _ _)⟩

/-! ### Random outputs -/

/-- A proof for any output, which needs the public key only. -/
def forgeVrf (pubKey : PublicKey) (output : ByteString) : ByteString :=
  output ++ (forgeSignature pubKey output).bytes

theorem vrfVerify_append (pubKey : PublicKey) (input : ByteString) {output : ByteString}
    (houtput : output.length = 32) (signature : ByteString) :
    vrfVerify pubKey input (output ++ signature) =
      if verify pubKey ⟨signature⟩ output then some output else none := by
  have hsplit : (output ++ signature).splitAt 32 = (output, signature) := by
    rw [List.splitAt_eq, List.take_append_of_le_length houtput.ge,
      List.take_of_length_le houtput.le, List.drop_append_of_le_length houtput.ge,
      List.drop_of_length_le houtput.le, List.nil_append]
  simp only [vrfVerify, hsplit]
  rfl

/-- For keys from a seed of 32 bytes, `vrfVerify` rejects the proof of `vrfProve` for every
input, and for every output and every input it accepts a proof that is made without the
private key. -/
theorem vrf_accepts_forged {seed : ByteString} (hseed : seed.length = 32) :
    (∀ input, vrfVerify (generateKeyPairFromSeed seed).2 input
        (vrfProve (generateKeyPairFromSeed seed).1 input) = none) ∧
      ∀ output input, output.length = 32 →
        vrfVerify (generateKeyPairFromSeed seed).2 input
          (forgeVrf (generateKeyPairFromSeed seed).2 output) = some output := by
  constructor
  · intro input
    simp only [vrfProve]
    rw [vrfVerify_append _ _ (length_sha3_256 _), if_neg]
    -- the signed digest has 32 bytes, a length for which no signature verifies
    rw [verify_ed25519Sign_of_length_eq hseed rfl, length_sha3_256]
    omega
  · intro output input houtput
    rw [forgeVrf, vrfVerify_append _ _ houtput, if_pos (verify_forgeSignature _ _)]

theorem vrf_accepts_forged_seedOf :
    (seedOf 7).length = 32 ∧ (seedOf 1).length = 32 ∧
      vrfVerify (generateKeyPairFromSeed (seedOf 7)).2 [5]
        (forgeVrf (generateKeyPairFromSeed (seedOf 7)).2 (seedOf 1)) = some (seedOf 1) :=
  have hseed : (seedOf 7).length = 32 := rfl
  ⟨hseed, rfl, (vrf_accepts_forged hseed).2 (seedOf 1) [5] rfl⟩

/-! ### Commitments -/

/-- A commitment to a value of at least 32 bytes, with a blinding that leaves it within one
block, opens to all values with the same first 32 bytes and to no others, whatever the
blindings are. -/
theorem openCommitment_iff {value value' blinding blinding' : ByteString}
    (hvalue : 32 ≤ value.length) (hvalue' : 32 ≤ value'.length)
    (hfits : value.length + blinding.length < 136)
    (hfits' : value'.length + blinding'.length < 136) :
    openCommitment (commit value blinding) value' blinding' = true ↔
      value.take 32 = value'.take 32 := by
  have hcommit : ∀ {v b : ByteString}, 32 ≤ v.length → v.length + b.length < 136 →
      commit v b = ⟨v.take 32⟩ := by
    intro v b hv hb
    obtain ⟨r, x, rfl, hr⟩ := exists_append_of_le_length hv
    rw [List.length_append, hr] at hb
    rw [commit, hash, List.append_assoc, sha3_256_append_of_lt hr (by
      rw [List.length_append]
      omega), List.take_append_of_le_length hr.ge, List.take_of_length_le hr.le]
  rw [openCommitment, hcommit hvalue hfits, hcommit hvalue' hfits', beq_iff_eq, Hash.mk.injEq,
    eq_comm]

-- another value and another blinding for one commitment
example : openCommitment (commit (seedOf 1 ++ [1]) (seedOf 2)) (seedOf 1 ++ [3]) (seedOf 4) =
    true :=
  (openCommitment_iff (by decide) (by decide) (by decide) (by decide)).mpr rfl

end Crypto

/-! ### Blocks -/

/-- The private key behind the signature of a header. -/
def producerKey (header : BlockHeader) : PrivateKey :=
  (Crypto.generateKeyPairFromSeed (Crypto.unmask (Crypto.extended (serializeHeader header))
    (header.bhSignature.bytes.take 32))).1

/-- Every block shows the private key that has signed it. -/
theorem createBlock_discloses {seed : ByteString} (hseed : seed.length = 32)
    {timestamp : Timestamp} {parentHeader : BlockHeader} {slot : SlotNumber} {epoch : EpochNumber}
    {validator : ValidatorId} {txs : List Transaction} {votes : List Vote} {utxoSet : UTxOSet}
    {block : Block}
    (hcreate : createBlock timestamp parentHeader slot epoch validator
      (Crypto.generateKeyPairFromSeed seed).1 txs votes utxoSet = .ok block) :
    producerKey block.bHeader = (Crypto.generateKeyPairFromSeed seed).1 := by
  simp only [createBlock, bind_eq_ok_iff, signBlock_eq_ok, Except.ok.injEq] at hcreate
  obtain ⟨number, _, sig, rfl, rfl⟩ := hcreate
  rw [producerKey]
  -- the signature is no part of the bytes that are signed
  exact congrArg (fun s => (Crypto.generateKeyPairFromSeed s).1)
    (Crypto.unmask_ed25519Sign hseed _)

/-- The first block after genesis. -/
theorem createBlock_discloses_seedOf :
    (Crypto.seedOf 7).length = 32 ∧
      ∃ block, createBlock ⟨0⟩ genesisHeader ⟨1⟩ ⟨0⟩ (validatorOfSeed (Crypto.seedOf 7))
          (Crypto.generateKeyPairFromSeed (Crypto.seedOf 7)).1 [] [] ⟨AscMap.empty⟩ = .ok block ∧
        producerKey block.bHeader = (Crypto.generateKeyPairFromSeed (Crypto.seedOf 7)).1 := by
  have hseed : (Crypto.seedOf 7).length = 32 := rfl
  have hcreate := (createBlock_eq_ok_iff ⟨0⟩ genesisHeader ⟨1⟩ ⟨0⟩ (Crypto.seedOf 7) [] []
    ⟨AscMap.empty⟩).mpr ⟨by decide, rfl⟩
  exact ⟨hseed, _, hcreate, createBlock_discloses hseed hcreate⟩

end Protocol

end CryptoCoin
