import CryptoCoin.Protocol.Encryption
import CryptoCoin.Protocol.RoundTrip
import CryptoCoin.Protocol.Serialize

/-!
# Key derivation

A key is derived by hashing the salt, and hashing the result with the info. Both inputs
of `deriveChildKey` begin with the parent's seed and fit into one block, so both hashes
return the seed (`hkdfDerive_append`): the index is lost and every child is its parent,
down every path of indices.

`derivePublicKey` takes the seed to be the first 32 bytes of the private key. The private
key is the seed of the caller followed by the public key, so with a shorter seed it takes
the beginning of the public key as well, and of a longer one it takes a part.
-/

namespace CryptoCoin

namespace Protocol

namespace Crypto

/-! ### Derivation -/

def hkdfDerive (salt info : ByteString) (length : ℤ) : ByteString :=
  let prk := sha3_256 (salt ++ [0x01])
  let okm := sha3_256 (prk ++ info ++ [0x01])
  okm.take length.toNat

/-- The module has a copy of the function of the serializer. -/
def serializeWord32 (w : UInt32) : ByteString := Protocol.serializeWord32 w

def deriveChildKey (parentPriv : PrivateKey) (index : UInt32) : PrivateKey × PublicKey :=
  let derivationData := parentPriv.bytes ++ serializeWord32 index
  let childSeed := hkdfDerive parentPriv.bytes derivationData 32
  generateKeyPairFromSeed childSeed

def keyGenDeterministic (masterSeed derivationPath : ByteString) : PrivateKey × PublicKey :=
  let derivedKey := hkdfDerive masterSeed derivationPath 32
  generateKeyPairFromSeed derivedKey

def ed25519DerivePublic (privKey : ByteString) : ByteString :=
  let seed := privKey.take 32
  (sha3_512 seed).take 32

def derivePublicKey (privKey : PrivateKey) : PublicKey := ⟨ed25519DerivePublic privKey.bytes⟩

/-! ### Children -/

/-- Nothing but the first 32 bytes of the salt is left of a salt and an info that fit into
a block each. -/
theorem hkdfDerive_append {r x info : ByteString} (hr : r.length = 32) (hx : x.length < 103)
    (hinfo : info.length < 103) : hkdfDerive (r ++ x) info 32 = r := by
  have hkeep : ∀ y : ByteString, y.length < 103 → sha3_256 (r ++ y ++ [0x01]) = r := by
    intro y hy
    rw [List.append_assoc, sha3_256_append_of_lt hr]
    rw [List.length_append, List.length_singleton]
    omega
  simp only [hkdfDerive, hkeep x hx, hkeep info hinfo]
  exact List.take_of_length_le hr.le

theorem deriveChildKey_eq_parent {seed : ByteString} (hseed : seed.length = 32)
    (index : UInt32) :
    deriveChildKey (generateKeyPairFromSeed seed).1 index = generateKeyPairFromSeed seed := by
  have hindex : (serializeWord32 index).length = 4 := length_serializeWord32 index
  have hchild : hkdfDerive (generateKeyPairFromSeed seed).1.bytes
      ((generateKeyPairFromSeed seed).1.bytes ++ serializeWord32 index) 32 = seed := by
    rw [privateKey_eq]
    apply hkdfDerive_append hseed
    · rw [length_publicKey]
      decide
    · rw [List.length_append, List.length_append, hseed, length_publicKey, hindex]
      decide
  rw [deriveChildKey, hchild]

theorem foldl_deriveChildKey {seed : ByteString} (hseed : seed.length = 32)
    (path : List UInt32) :
    path.foldl (fun keys index => deriveChildKey keys.1 index) (generateKeyPairFromSeed seed) =
      generateKeyPairFromSeed seed := by
  induction path with
  | nil => rfl
  | cons index path ih => rw [List.foldl_cons, deriveChildKey_eq_parent hseed, ih]

theorem keyGenDeterministic_eq {masterSeed derivationPath : ByteString}
    (hseed : masterSeed.length = 32) (hpath : derivationPath.length < 103) :
    keyGenDeterministic masterSeed derivationPath = generateKeyPairFromSeed masterSeed := by
  have hkey := hkdfDerive_append (x := []) hseed (by decide) hpath
  rw [List.append_nil] at hkey
  rw [keyGenDeterministic, hkey]

/-- Two children of a seed differ from each other and from their parent. -/
def ChildKeysDistinct (seed : ByteString) (i j : UInt32) : Prop :=
  deriveChildKey (generateKeyPairFromSeed seed).1 i ≠
      deriveChildKey (generateKeyPairFromSeed seed).1 j ∧
    deriveChildKey (generateKeyPairFromSeed seed).1 i ≠ generateKeyPairFromSeed seed ∧
    deriveChildKey (generateKeyPairFromSeed seed).1 j ≠ generateKeyPairFromSeed seed

/-- They never do: all three are one key pair. -/
theorem childKeys_eq {seed : ByteString} (hseed : seed.length = 32) (i j : UInt32) :
    deriveChildKey (generateKeyPairFromSeed seed).1 i =
        deriveChildKey (generateKeyPairFromSeed seed).1 j ∧
      deriveChildKey (generateKeyPairFromSeed seed).1 i = generateKeyPairFromSeed seed ∧
      ¬ ChildKeysDistinct seed i j := by
  have hparent := deriveChildKey_eq_parent hseed i
  have hsame := hparent.trans (deriveChildKey_eq_parent hseed j).symm
  exact ⟨hsame, hparent, fun hdistinct => hdistinct.1 hsame⟩

theorem childKeys_eq_seedOf :
    (seedOf 7).length = 32 ∧ (0 : UInt32) ≠ 1 ∧
      deriveChildKey (generateKeyPairFromSeed (seedOf 7)).1 0 =
        deriveChildKey (generateKeyPairFromSeed (seedOf 7)).1 1 :=
  ⟨rfl, by decide, (childKeys_eq rfl 0 1).1⟩

theorem childKeys_not_distinct : ¬ ChildKeysDistinct (seedOf 7) 0 1 := by
  intro hdistinct
  apply hdistinct.1
  rw [deriveChildKey_eq_parent rfl, deriveChildKey_eq_parent rfl]

/-! ### The public key of a private key -/

theorem publicKey_eq (seed : ByteString) :
    (generateKeyPairFromSeed seed).2 = ⟨sha3_256 (extended seed)⟩ := by
  rw [extended, ← take_sha3_512]
  rfl

theorem derivePublicKey_eq (seed : ByteString) :
    derivePublicKey (generateKeyPairFromSeed seed).1 =
      ⟨(seed ++ sha3_256 (extended seed)).take 32⟩ := by
  have hlen : ((seed ++ sha3_256 (extended seed)).take 32).length = 32 := by simp
  rw [derivePublicKey, ed25519DerivePublic, privateKey_eq, publicKey_eq, take_sha3_512,
    sha3_256_append_of_lt hlen (by simp)]

theorem sha3_256_extended_of_length_le {seed : ByteString} (hseed : seed.length ≤ 32) :
    sha3_256 (extended seed) = seed ++ List.replicate (32 - seed.length) 0 := by
  have hsplit : extended seed =
      (seed ++ List.replicate (32 - seed.length) 0) ++ List.replicate seed.length 0 := by
    rw [extended, List.append_assoc, List.replicate_append_replicate, Nat.sub_add_cancel hseed]
  have hlen : (seed ++ List.replicate (32 - seed.length) 0).length = 32 := by
    rw [List.length_append, List.length_replicate]
    omega
  rw [hsplit, sha3_256_append_of_lt hlen (by rw [List.length_replicate]; omega)]

theorem derivePublicKey_eq_iff_of_length_le {seed : ByteString} (hseed : seed.length ≤ 32) :
    derivePublicKey (generateKeyPairFromSeed seed).1 = (generateKeyPairFromSeed seed).2 ↔
      ∀ b ∈ seed.take (32 - seed.length), b = 0 := by
  rw [derivePublicKey_eq, publicKey_eq, PublicKey.mk.injEq, sha3_256_extended_of_length_le hseed,
    List.take_append, List.take_of_length_le hseed, List.append_cancel_left_eq,
    List.take_append, List.take_replicate, List.eq_replicate_iff]
  constructor
  · rintro ⟨_, hzero⟩ b hb
    exact hzero b (List.mem_append_left _ hb)
  · intro hzero
    refine ⟨by simp; omega, fun b hb => ?_⟩
    rcases List.mem_append.mp hb with hb | hb
    · exact hzero b hb
    · exact List.eq_of_mem_replicate hb

theorem derivePublicKey_eq_iff_of_le_length {seed : ByteString} (hseed : 32 ≤ seed.length) :
    derivePublicKey (generateKeyPairFromSeed seed).1 = (generateKeyPairFromSeed seed).2 ↔
      seed.length < 104 ∨ 136 ≤ seed.length ∧
        sha3_256 ((extended seed).drop 136) = List.replicate 32 0 := by
  obtain ⟨r, x, rfl, hr⟩ := exists_append_of_le_length hseed
  have hpub : sha3_256 (extended (r ++ x)) =
      if x.length < 72 then r else absorb r (sha3_256 ((extended x).drop 104)) := by
    have hlen : (extended x).length < 104 ↔ x.length < 72 := by
      rw [length_extended]
      omega
    have hsplit : extended (r ++ x) = r ++ extended x := by
      rw [extended, extended, List.append_assoc]
    rw [hsplit, sha3_256_append hr]
    simp only [hlen]
  have hderived : ((r ++ x) ++ sha3_256 (extended (r ++ x))).take 32 = r := by
    rw [List.append_assoc, List.take_append_of_le_length hr.ge, List.take_of_length_le hr.le]
  have hdrop : (extended (r ++ x)).drop 136 = (extended x).drop 104 := by
    rw [extended, extended, List.append_assoc, List.drop_append, hr,
      List.drop_of_length_le (by omega), List.nil_append]
  rw [derivePublicKey_eq, publicKey_eq, PublicKey.mk.injEq, hderived, hdrop, hpub,
    List.length_append, hr]
  rcases lt_or_ge x.length 72 with hshort | hlong
  · rw [if_pos hshort]
    exact iff_of_true rfl (Or.inl (by omega))
  · rw [if_neg (by omega), eq_comm, eq_absorb_iff hr (length_sha3_256 _)]
    rcases lt_or_ge x.length 104 with hmiddle | hbig
    · -- the zeros of `sha3_512` alone reach into the second block
      rw [drop_extended (by omega)]
      refine iff_of_false (sha3_256_replicate_zero_ne (by omega)) ?_
      omega
    · constructor
      · intro heq
        exact Or.inr ⟨by omega, heq⟩
      · rintro (hshort | ⟨_, heq⟩)
        · omega
        · exact heq

/-- The seeds whose public key is the one derived from their private key. -/
theorem derivePublicKey_eq_iff (seed : ByteString) :
    derivePublicKey (generateKeyPairFromSeed seed).1 = (generateKeyPairFromSeed seed).2 ↔
      (seed.length ≤ 32 ∧ ∀ b ∈ seed.take (32 - seed.length), b = 0) ∨
        (32 < seed.length ∧ seed.length < 104) ∨
        (136 ≤ seed.length ∧
          sha3_256 ((extended seed).drop 136) = List.replicate 32 0) := by
  rcases le_or_gt seed.length 32 with hshort | hlong
  · rw [derivePublicKey_eq_iff_of_length_le hshort]
    constructor
    · intro hzero
      exact Or.inl ⟨hshort, hzero⟩
    · rintro (⟨_, hzero⟩ | ⟨hlong, _⟩ | ⟨hlong, _⟩)
      · exact hzero
      · omega
      · omega
  · rw [derivePublicKey_eq_iff_of_le_length hlong.le, and_iff_right hlong]
    exact (or_iff_right fun hshort => not_lt_of_ge hshort.1 hlong).symm

/-- The public key of a seed of one byte does not come back. -/
theorem derivePublicKey_ne :
    derivePublicKey (generateKeyPairFromSeed [1]).1 ≠ (generateKeyPairFromSeed [1]).2 := by
  rw [Ne, derivePublicKey_eq_iff_of_length_le (by decide)]
  decide

end Crypto

end Protocol

end CryptoCoin
