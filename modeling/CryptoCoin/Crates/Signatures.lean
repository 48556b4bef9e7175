import CryptoCoin.Crates.Wire

/-!
# The crate `signatures`

Keys, signatures, the verifiable random function and the commitments of the crate
`signatures`. SHA-256 and Ed25519 come from other crates: the hash is a parameter, and
`Dalek` collects what is called of `ed25519_dalek`.

A proof of the random function is a hash and a signature of it. The verifier never looks
at the input, and the signature is rebuilt from whatever number of bytes is left. So the
holder of a key can make every hash the output for every input, and every accepted proof
has others beside it that are accepted for the same output.

A commitment hashes the value and the blinding one after the other, without the place
where the one ends.
-/

namespace CryptoCoin

namespace Crates

namespace Signatures

open Wire (Bytes)

/-! ### Types -/

@[ext] structure Hash where
  bytes : Bytes 32
  deriving DecidableEq

@[ext] structure Signature where
  bytes : Bytes 64
  deriving DecidableEq

structure PublicKey where
  bytes : Bytes 32
  deriving DecidableEq

structure SecretKey where
  bytes : Bytes 32

/-- An array of zeros whose beginning is overwritten by as much of the slice as fits. -/
def fill (n : ℕ) (bytes : List UInt8) : Bytes n :=
  ⟨bytes.take n ++ List.replicate (n - bytes.length) 0, by
    rw [List.length_append, List.length_take, List.length_replicate]
    omega⟩

def Hash.new (bytes : List UInt8) : Hash := ⟨fill 32 bytes⟩

def Signature.new (bytes : List UInt8) : Signature := ⟨fill 64 bytes⟩

theorem bytes_fill (n : ℕ) (bytes : List UInt8) :
    (fill n bytes).bytes = bytes.take n ++ List.replicate (n - bytes.length) 0 := rfl

theorem fill_append {n : ℕ} {bytes : List UInt8} (h : bytes.length = n) (extra : List UInt8) :
    (fill n (bytes ++ extra)).bytes = bytes := by
  rw [bytes_fill, List.take_left' h, List.length_append, h, Nat.sub_eq_zero_of_le (by omega),
    List.replicate_zero, List.append_nil]

theorem fill_of_length_eq {n : ℕ} {bytes : List UInt8} (h : bytes.length = n) :
    (fill n bytes).bytes = bytes := by
  have hfill := fill_append h []
  rwa [List.append_nil] at hfill

/-- A zero behind the slice is written over a zero, or does not fit. -/
theorem fill_append_zero (n : ℕ) (bytes : List UInt8) :
    fill n (bytes ++ [0]) = fill n bytes := by
  have hlen : (bytes ++ [(0 : UInt8)]).length = bytes.length + 1 := List.length_append
  apply Bytes.ext
  rw [bytes_fill, bytes_fill, hlen]
  rcases lt_or_ge bytes.length n with hroom | hfull
  · have hzeros : n - bytes.length = n - (bytes.length + 1) + 1 := by omega
    rw [List.take_of_length_le (by omega), List.take_of_length_le hroom.le, hzeros,
      List.replicate_succ, List.append_assoc, List.singleton_append]
  · rw [List.take_append_of_le_length hfull, Nat.sub_eq_zero_of_le hfull,
      Nat.sub_eq_zero_of_le (by omega)]

/-! ### Signing -/

/-- What the crate uses of `ed25519_dalek`. -/
structure Dalek where
  VerifyingKey : Type
  DalekSignature : Type
  /-- `SigningKey::from_bytes(..).verifying_key().to_bytes()`. -/
  verifyingKey : Bytes 32 → Bytes 32
  /-- `SigningKey::from_bytes(..).sign(data).to_bytes()`. -/
  sign : Bytes 32 → List UInt8 → Bytes 64
  keyFromBytes : Bytes 32 → Option VerifyingKey
  signatureFromBytes : Bytes 64 → Option DalekSignature
  verify : VerifyingKey → List UInt8 → DalekSignature → Bool

section Crate

variable (sha256 : List UInt8 → Bytes 32) (dalek : Dalek)

/-- SHA-256, under the name that the source gives it. -/
def sha3_256 (data : List UInt8) : Hash := ⟨sha256 data⟩

def derivePublicKey (secret : SecretKey) : PublicKey := ⟨dalek.verifyingKey secret.bytes⟩

/-- The two halves of a key pair belong together. -/
structure KeyPair where
  secret : SecretKey
  publicKey : PublicKey
  publicKey_eq : publicKey = derivePublicKey dalek secret

def generateKeypairFromSeed (seed : List UInt8) : KeyPair dalek :=
  let signingKey := sha256 seed
  { secret := ⟨signingKey⟩
    publicKey := ⟨dalek.verifyingKey signingKey⟩
    publicKey_eq := rfl }

def sign (secret : SecretKey) (data : List UInt8) : Signature := ⟨dalek.sign secret.bytes data⟩

def verify (publicKey : PublicKey) (signature : Signature) (data : List UInt8) : Bool :=
  match dalek.keyFromBytes publicKey.bytes with
  | none => false
  | some verifyingKey =>
      match dalek.signatureFromBytes signature.bytes with
      | none => false
      | some sig => dalek.verify verifyingKey data sig

/-- A signature is accepted under the key that belongs to the signer. -/
def Dalek.AcceptsSigned : Prop :=
  ∀ (secret : SecretKey) (data : List UInt8),
    Signatures.verify dalek (derivePublicKey dalek secret) (Signatures.sign dalek secret data)
      data = true

/-- A scheme to compute with: a signature is the key followed by the data, cut off or filled
up to 64 bytes. -/
def echo : Dalek where
  VerifyingKey := Bytes 32
  DalekSignature := Bytes 64
  verifyingKey secret := secret
  sign secret data := fill 64 (secret.bytes ++ data)
  keyFromBytes := some
  signatureFromBytes := some
  verify key data sig := sig = fill 64 (key.bytes ++ data)

theorem acceptsSigned_echo : echo.AcceptsSigned := by
  intro secret data
  exact decide_eq_true rfl

def echoKeys : KeyPair echo := generateKeypairFromSeed (fill 32) echo [7]

/-! ### The verifiable random function -/

def vrfProve (secret : SecretKey) (input : List UInt8) : List UInt8 :=
  let hash := sha3_256 sha256 (secret.bytes.bytes ++ input)
  let proof := sign dalek secret hash.bytes.bytes
  hash.bytes.bytes ++ proof.bytes.bytes

def vrfVerify (publicKey : PublicKey) (_input proof : List UInt8) : Option Hash :=
  if proof.length < 64 then none
  else
    let (hashBytes, sigBytes) := proof.splitAt 32
    let hash := Hash.new hashBytes
    let sig := Signature.new sigBytes
    -- the signature is of the hash alone, which nothing ties to the input
    if verify dalek publicKey sig hash.bytes.bytes then some hash else none

theorem vrfVerify_eq_some_iff {publicKey : PublicKey} {input proof : List UInt8} {hash : Hash} :
    vrfVerify dalek publicKey input proof = some hash ↔
      64 ≤ proof.length ∧ hash.bytes.bytes = proof.take 32 ∧
        verify dalek publicKey (Signature.new (proof.drop 32)) (proof.take 32) = true := by
  rcases lt_or_ge proof.length 64 with hshort | hlong
  · rw [vrfVerify, if_pos hshort]
    exact iff_of_false (fun h => by cases h) fun h => absurd h.1 (Nat.not_le.mpr hshort)
  · have hfirst : (fill 32 (proof.take 32)).bytes = proof.take 32 :=
      fill_of_length_eq (by rw [List.length_take]; omega)
    simp only [vrfVerify, if_neg (Nat.not_lt.mpr hlong), List.splitAt_eq, Hash.new, hfirst]
    constructor
    · intro h
      split at h
      · next hverify =>
          cases h
          exact ⟨hlong, hfirst, hverify⟩
      · cases h
    · rintro ⟨_, hhash, hverify⟩
      rw [if_pos hverify, Option.some_inj]
      exact Hash.ext (Bytes.ext (hfirst.trans hhash.symm))

/-- A hash followed by a signature of it is a proof of that hash, for every input and with
whatever comes behind. -/
theorem vrfVerify_append {publicKey : PublicKey} {hash : Hash} {sig : Signature}
    (hverify : verify dalek publicKey sig hash.bytes.bytes = true) (input extra : List UInt8) :
    vrfVerify dalek publicKey input (hash.bytes.bytes ++ (sig.bytes.bytes ++ extra)) =
      some hash := by
  have hsig : Signature.new (sig.bytes.bytes ++ extra) = sig :=
    Signature.ext (Bytes.ext (fill_append sig.bytes.size extra))
  rw [vrfVerify_eq_some_iff, List.take_left' hash.bytes.size, List.drop_left' hash.bytes.size,
    List.length_append, List.length_append, hash.bytes.size, sig.bytes.size, hsig]
  exact ⟨by omega, rfl, hverify⟩

variable {dalek}

theorem vrfVerify_signed_append (hdalek : dalek.AcceptsSigned) (keys : KeyPair dalek)
    (input : List UInt8) (hash : Hash) (extra : List UInt8) :
    vrfVerify dalek keys.publicKey input
      (hash.bytes.bytes ++ ((sign dalek keys.secret hash.bytes.bytes).bytes.bytes ++ extra)) =
        some hash := by
  apply vrfVerify_append
  rw [keys.publicKey_eq]
  exact hdalek keys.secret _

theorem vrfVerify_signed (hdalek : dalek.AcceptsSigned) (keys : KeyPair dalek)
    (input : List UInt8) (hash : Hash) :
    vrfVerify dalek keys.publicKey input
      (hash.bytes.bytes ++ (sign dalek keys.secret hash.bytes.bytes).bytes.bytes) =
        some hash := by
  have hproof := vrfVerify_signed_append hdalek keys input hash []
  rwa [List.append_nil] at hproof

theorem vrfVerify_vrfProve_append (hdalek : dalek.AcceptsSigned) (keys : KeyPair dalek)
    (input extra : List UInt8) :
    vrfVerify dalek keys.publicKey input (vrfProve sha256 dalek keys.secret input ++ extra) =
      some (sha3_256 sha256 (keys.secret.bytes.bytes ++ input)) := by
  rw [vrfProve, List.append_assoc]
  exact vrfVerify_signed_append hdalek keys input _ extra

variable (dalek)

/-- One output for each input. -/
def VrfUnique (publicKey : PublicKey) (input : List UInt8) : Prop :=
  ∀ (p q : List UInt8) (h h' : Hash), vrfVerify dalek publicKey input p = some h →
    vrfVerify dalek publicKey input q = some h' → h = h'

/-- No key pair and no input has it. -/
theorem not_vrfUnique {dalek : Dalek} (hdalek : dalek.AcceptsSigned) (keys : KeyPair dalek)
    (input : List UInt8) : ¬ VrfUnique dalek keys.publicKey input := by
  intro hunique
  have hzero := vrfVerify_signed hdalek keys input ⟨Bytes.replicate 32 0⟩
  have hone := vrfVerify_signed hdalek keys input ⟨Bytes.replicate 32 1⟩
  have hsame := hunique _ _ _ _ hzero hone
  exact absurd hsame (by decide)

theorem not_vrfUnique_echo :
    echo.AcceptsSigned ∧ ¬ VrfUnique echo echoKeys.publicKey [] :=
  ⟨acceptsSigned_echo, not_vrfUnique acceptsSigned_echo echoKeys []⟩

theorem vrfVerify_two_outputs :
    vrfVerify echo echoKeys.publicKey []
        (List.replicate 32 0 ++ (sign echo echoKeys.secret (List.replicate 32 0)).bytes.bytes) =
          some ⟨Bytes.replicate 32 0⟩ ∧
      vrfVerify echo echoKeys.publicKey []
        (List.replicate 32 1 ++ (sign echo echoKeys.secret (List.replicate 32 1)).bytes.bytes) =
          some ⟨Bytes.replicate 32 1⟩ ∧
      Bytes.replicate 32 0 ≠ Bytes.replicate 32 1 :=
  ⟨vrfVerify_signed acceptsSigned_echo echoKeys [] ⟨Bytes.replicate 32 0⟩,
    vrfVerify_signed acceptsSigned_echo echoKeys [] ⟨Bytes.replicate 32 1⟩, by decide⟩

/-- The proof is the output and a signature of it, and is accepted neither with more bytes
nor with fewer. -/
def VrfCanonical (publicKey : PublicKey) (input proof : List UInt8) : Prop :=
  ∀ h : Hash, vrfVerify dalek publicKey input proof = some h →
    (proof.length = 96 ∧ ∃ sig : Signature, proof = h.bytes.bytes ++ sig.bytes.bytes ∧
        verify dalek publicKey sig h.bytes.bytes = true) ∧
      (∀ extra : List UInt8, extra ≠ [] →
        vrfVerify dalek publicKey input (proof ++ extra) = none) ∧
      ∀ n < proof.length, vrfVerify dalek publicKey input (proof.take n) = none

/-- An accepted proof of whatever length can be made longer by a zero. -/
theorem vrfVerify_append_zero {publicKey : PublicKey} {input proof : List UInt8} {h : Hash}
    (haccepted : vrfVerify dalek publicKey input proof = some h) :
    vrfVerify dalek publicKey input (proof ++ [0]) = some h := by
  obtain ⟨hlong, hhash, hverify⟩ := (vrfVerify_eq_some_iff dalek).mp haccepted
  have hsig : Signature.new ((proof ++ [0]).drop 32) = Signature.new (proof.drop 32) := by
    rw [List.drop_append_of_le_length (by omega), Signature.new, Signature.new, fill_append_zero]
  rw [vrfVerify_eq_some_iff, hsig, List.take_append_of_le_length (by omega), List.length_append]
  exact ⟨by omega, hhash, hverify⟩

/-- Only byte strings that are no proofs are canonical: those of less than 64 bytes, and those
from which the rebuilt signature is not one of the first 32 bytes. -/
theorem vrfCanonical_iff (publicKey : PublicKey) (input proof : List UInt8) :
    VrfCanonical dalek publicKey input proof ↔
      proof.length < 64 ∨
        verify dalek publicKey (Signature.new (proof.drop 32)) (proof.take 32) = false := by
  constructor
  · intro hcanonical
    by_contra haccepts
    rw [not_or, Nat.not_lt, Bool.not_eq_false] at haccepts
    have haccepted : vrfVerify dalek publicKey input proof = some (Hash.new (proof.take 32)) := by
      rw [vrfVerify_eq_some_iff]
      exact ⟨haccepts.1, fill_of_length_eq (by rw [List.length_take]; omega), haccepts.2⟩
    have hlonger := vrfVerify_append_zero dalek haccepted
    rw [(hcanonical _ haccepted).2.1 [0] (List.cons_ne_nil 0 [])] at hlonger
    cases hlonger
  · intro hrejects h haccepted
    obtain ⟨hlong, _, hverify⟩ := (vrfVerify_eq_some_iff dalek).mp haccepted
    rcases hrejects with hshort | hfails
    · exact absurd hlong (Nat.not_le.mpr hshort)
    · rw [hverify] at hfails
      cases hfails

/-- An honest proof is accepted with a byte behind it, under every scheme that accepts what it
has signed. -/
theorem vrfProve_append_accepted :
    (vrfProve (fill 32) echo echoKeys.secret [1] ++ [5]).length = 97 ∧
      vrfVerify echo echoKeys.publicKey [1]
          (vrfProve (fill 32) echo echoKeys.secret [1] ++ [5]) =
        some (sha3_256 (fill 32) (echoKeys.secret.bytes.bytes ++ [1])) ∧
      ¬ VrfCanonical echo echoKeys.publicKey [1]
        (vrfProve (fill 32) echo echoKeys.secret [1] ++ [5]) ∧
      ∀ (sha256 : List UInt8 → Bytes 32) (dalek : Dalek), dalek.AcceptsSigned →
        ∀ keys : KeyPair dalek,
          ¬ VrfCanonical dalek keys.publicKey [1]
            (vrfProve sha256 dalek keys.secret [1] ++ [5]) := by
  have hlen : ∀ (sha256 : List UInt8 → Bytes 32) (dalek : Dalek) (keys : KeyPair dalek),
      (vrfProve sha256 dalek keys.secret [1] ++ [5]).length = 97 := by
    intro sha256 dalek keys
    rw [vrfProve, List.length_append, List.length_append, Bytes.size, Bytes.size]
    rfl
  have hlonger : ∀ (sha256 : List UInt8 → Bytes 32) (dalek : Dalek), dalek.AcceptsSigned →
      ∀ keys : KeyPair dalek, ¬ VrfCanonical dalek keys.publicKey [1]
        (vrfProve sha256 dalek keys.secret [1] ++ [5]) := by
    intro sha256 dalek hdalek keys hcanonical
    have hsize := (hcanonical _ (vrfVerify_vrfProve_append sha256 hdalek keys [1] [5])).1.1
    rw [hlen] at hsize
    exact absurd hsize (by decide)
  exact ⟨hlen _ _ echoKeys, vrfVerify_vrfProve_append _ acceptsSigned_echo echoKeys [1] [5],
    hlonger _ _ acceptsSigned_echo echoKeys, hlonger⟩

/-! ### Commitments -/

def commit (value blinding : List UInt8) : Hash := sha3_256 sha256 (value ++ blinding)

def openCommitment (commitment : Hash) (value blinding : List UInt8) : Bool :=
  commit sha256 value blinding == commitment

/-- A commitment is opened only as it was made, or the hash has a collision. -/
def CommitmentBinds (value blinding value' blinding' : List UInt8) : Prop :=
  openCommitment sha256 (commit sha256 value blinding) value' blinding' = true →
    (value = value' ∧ blinding = blinding') ∨
      (value ++ blinding ≠ value' ++ blinding' ∧
        sha256 (value ++ blinding) = sha256 (value' ++ blinding'))

theorem openCommitment_commit_iff (value blinding value' blinding' : List UInt8) :
    openCommitment sha256 (commit sha256 value blinding) value' blinding' = true ↔
      sha256 (value ++ blinding) = sha256 (value' ++ blinding') := by
  rw [openCommitment, beq_iff_eq, commit, commit, sha3_256, sha3_256, Hash.mk.injEq, eq_comm]

/-- The same bytes, cut at another place. -/
theorem not_commitmentBinds {value blinding value' blinding' : List UInt8}
    (hbytes : value ++ blinding = value' ++ blinding') (hlen : value.length ≠ value'.length) :
    ¬ CommitmentBinds sha256 value blinding value' blinding' := by
  rw [CommitmentBinds, openCommitment_commit_iff, hbytes]
  intro hbinds
  rcases hbinds rfl with ⟨rfl, _⟩ | ⟨hne, _⟩
  · exact hlen rfl
  · exact hne rfl

/-- The places where the values end must be the same. -/
theorem commitmentBinds_iff (value blinding value' blinding' : List UInt8) :
    CommitmentBinds sha256 value blinding value' blinding' ↔
      value.length = value'.length ∨ value ++ blinding ≠ value' ++ blinding' := by
  constructor
  · intro hbinds
    by_contra hother
    rw [not_or, not_not] at hother
    exact not_commitmentBinds sha256 hother.2 hother.1 hbinds
  · intro hplace hopen
    by_cases hbytes : value ++ blinding = value' ++ blinding'
    · rcases hplace with hlen | hne
      · exact Or.inl (List.append_inj hbytes hlen)
      · exact absurd hbytes hne
    · exact Or.inr ⟨hbytes, (openCommitment_commit_iff sha256 _ _ _ _).mp hopen⟩

/-- The second byte of a value can be opened as the blinding. -/
theorem commitment_opens_as_blinding :
    ([1, 2] : List UInt8) ++ [] = [1] ++ [2] ∧
      ∀ sha256 : List UInt8 → Bytes 32, ¬ CommitmentBinds sha256 [1, 2] [] [1] [2] :=
  ⟨rfl, fun sha256 => not_commitmentBinds sha256 rfl (by decide)⟩

end Crate

end Signatures

end Crates

end CryptoCoin
