import CryptoCoin.Protocol.Crypto
import Mathlib.Data.List.GetD

/-!
# Key exchange and encryption

The shared secret of `CryptoCoin.Protocol.Crypto` is the hash of one party's private key
and the other's public key. The hash keeps the first 32 bytes of such a block, and those
are the seed of the caller (`generateSharedSecret_eq_seed`), so the two parties have the
same secret only when they have the same seed.

Encryption is an exclusive or with the key stream, the hash of the key and the nonce over
and over again, and decryption is the same once more. One party reads what the other has
written as far as the seeds agree (`decrypt_encrypt_iff`).
-/

namespace CryptoCoin

namespace Protocol

namespace Crypto

/-! ### Key exchange -/

def x25519SharedSecret (privKey pubKey : ByteString) : ByteString := sha3_256 (privKey ++ pubKey)

def generateSharedSecret (privKey : PrivateKey) (pubKey : PublicKey) : ByteString :=
  x25519SharedSecret privKey.bytes pubKey.bytes

/-! ### Encryption -/

/-- The bytes over and over again. The source raises an error for no bytes at all; a
key stream has 32. -/
def cycle (bs : ByteString) (i : ℕ) : UInt8 := bs.getD (i % bs.length) 0

def chacha20Poly1305Encrypt (key nonce plaintext : ByteString) : ByteString :=
  let keyStream := sha3_256 (key ++ nonce)
  let repeated := cycle keyStream
  List.zipWith (· ^^^ ·) plaintext ((List.range plaintext.length).map repeated)

def chacha20Poly1305Decrypt (key nonce ciphertext : ByteString) : Option ByteString :=
  some (chacha20Poly1305Encrypt key nonce ciphertext)

def encryptWithSharedSecret (sharedSecret nonce plaintext : ByteString) : ByteString :=
  chacha20Poly1305Encrypt sharedSecret nonce plaintext

def decryptWithSharedSecret (sharedSecret nonce ciphertext : ByteString) : Option ByteString :=
  chacha20Poly1305Decrypt sharedSecret nonce ciphertext

/-! ### The key stream -/

theorem map_cycle_eq_iff {a b : ByteString} (hlen : a.length = b.length) (n : ℕ) :
    (List.range n).map (cycle a) = (List.range n).map (cycle b) ↔ a.take n = b.take n := by
  rw [List.map_inj_left]
  constructor
  · intro h
    apply List.ext_getElem (by rw [List.length_take, List.length_take, hlen])
    intro i hi hi'
    rw [List.length_take, lt_min_iff] at hi hi'
    have hbyte := h i (List.mem_range.mpr hi.1)
    rw [cycle, cycle, Nat.mod_eq_of_lt hi.2, Nat.mod_eq_of_lt hi'.2,
      List.getD_eq_getElem _ _ hi.2, List.getD_eq_getElem _ _ hi'.2] at hbyte
    rw [List.getElem_take, List.getElem_take, hbyte]
  · intro h i hi
    have hmod : i % a.length < n := lt_of_le_of_lt (Nat.mod_le _ _) (List.mem_range.mp hi)
    have hbyte := congrArg (fun bs => bs[i % a.length]?) h
    simp only [List.getElem?_take, hmod, if_true] at hbyte
    rw [cycle, cycle, ← hlen, List.getD_eq_getElem?_getD, List.getD_eq_getElem?_getD, hbyte]

theorem absorb_comm (s t : ByteString) : absorb s t = absorb t s := by
  have hxor : (fun x y : UInt8 => y ^^^ x) = fun x y => x ^^^ y := by
    funext x y
    exact UInt8.xor_comm y x
  rw [absorb, List.zipWith_comm, hxor]
  rfl

theorem absorb_self (s : ByteString) : absorb s s = List.replicate s.length 0 := by
  rw [absorb, List.zipWith_self]
  simp

theorem absorb_absorb_eq_iff {p a b : ByteString} (ha : a.length = p.length)
    (hb : b.length = p.length) : absorb (absorb p a) b = p ↔ a = b := by
  have hzero : absorb p (List.replicate p.length 0) = p := absorb_replicate_zero le_rfl
  have hsum : (absorb a b).length = p.length := by
    rw [length_absorb, ha, hb, Nat.min_self]
  calc absorb (absorb p a) b = p
      ↔ absorb p (absorb a b) = absorb p (List.replicate p.length 0) := by
        rw [absorb_assoc, hzero]
    _ ↔ absorb a b = absorb a a := by
        rw [absorb_left_inj hsum (List.length_replicate ..), absorb_self, ha]
    _ ↔ a = b := by
        rw [absorb_left_inj (hb.trans ha.symm) rfl, eq_comm]

theorem length_map_cycle (bs : ByteString) (n : ℕ) :
    ((List.range n).map (cycle bs)).length = n := by
  rw [List.length_map, List.length_range]

theorem length_encryptWithSharedSecret (key nonce p : ByteString) :
    (encryptWithSharedSecret key nonce p).length = p.length := by
  rw [encryptWithSharedSecret, chacha20Poly1305Encrypt, List.length_zipWith, length_map_cycle,
    Nat.min_self]

theorem getElem?_encryptWithSharedSecret (key nonce p : ByteString) (i : ℕ) :
    (encryptWithSharedSecret key nonce p)[i]? =
      p[i]?.map (· ^^^ (sha3_256 (key ++ nonce)).getD (i % 32) 0) := by
  rcases lt_or_ge i p.length with hi | hi
  · have hstream : ((List.range p.length).map (cycle (sha3_256 (key ++ nonce))))[i]? =
        some ((sha3_256 (key ++ nonce)).getD (i % 32) 0) := by
      rw [List.getElem?_map, List.getElem?_range hi, Option.map_some, cycle, length_sha3_256]
    rw [encryptWithSharedSecret, chacha20Poly1305Encrypt, List.getElem?_zipWith, hstream,
      List.getElem?_eq_getElem hi]
    rfl
  · rw [List.getElem?_eq_none (by rwa [length_encryptWithSharedSecret]),
      List.getElem?_eq_none hi, Option.map_none]

theorem decryptWithSharedSecret_eq_some_iff (key key' nonce p : ByteString) :
    decryptWithSharedSecret key' nonce (encryptWithSharedSecret key nonce p) = some p ↔
      (sha3_256 (key ++ nonce)).take p.length = (sha3_256 (key' ++ nonce)).take p.length := by
  rw [decryptWithSharedSecret, chacha20Poly1305Decrypt, Option.some_inj,
    chacha20Poly1305Encrypt, length_encryptWithSharedSecret]
  exact (absorb_absorb_eq_iff (length_map_cycle _ _) (length_map_cycle _ _)).trans
    (map_cycle_eq_iff (by rw [length_sha3_256, length_sha3_256]) p.length)

/-- Under one secret and nonce the plaintext comes back, from a ciphertext of its length
that is the plaintext xored with the digest over and over again. -/
theorem decrypt_encrypt (secret nonce p : ByteString) :
    (encryptWithSharedSecret secret nonce p).length = p.length ∧
      decryptWithSharedSecret secret nonce (encryptWithSharedSecret secret nonce p) = some p ∧
      ∀ i, (encryptWithSharedSecret secret nonce p)[i]? =
        p[i]?.map (· ^^^ (sha3_256 (secret ++ nonce)).getD (i % 32) 0) :=
  ⟨length_encryptWithSharedSecret secret nonce p,
    (decryptWithSharedSecret_eq_some_iff secret secret nonce p).mpr rfl,
    getElem?_encryptWithSharedSecret secret nonce p⟩

theorem take_sha3_256_append_eq_iff {a b : ByteString} (ha : a.length = 32) (hb : b.length = 32)
    (nonce : ByteString) (n : ℕ) :
    (sha3_256 (a ++ nonce)).take n = (sha3_256 (b ++ nonce)).take n ↔ a.take n = b.take n := by
  rw [sha3_256_append ha, sha3_256_append hb]
  by_cases hshort : nonce.length < 104
  · rw [if_pos hshort, if_pos hshort]
  · have hlen : ∀ s : ByteString, s.length = 32 →
        (s.take n).length = ((sha3_256 (nonce.drop 104)).take n).length := by
      intro s hs
      rw [List.length_take, List.length_take, hs, length_sha3_256]
    rw [if_neg hshort, if_neg hshort, absorb_comm a, absorb_comm b, absorb, absorb,
      List.take_zipWith, List.take_zipWith]
    exact absorb_left_inj (hlen a ha) (hlen b hb)

/-! ### Two parties -/

theorem length_publicKey (seed : ByteString) :
    (generateKeyPairFromSeed seed).2.bytes.length = 32 := by
  have hkey : (generateKeyPairFromSeed seed).2.bytes = (sha3_512 seed).take 32 := rfl
  rw [hkey, take_sha3_512, length_sha3_256]

theorem privateKey_eq (seed : ByteString) :
    (generateKeyPairFromSeed seed).1.bytes = seed ++ (generateKeyPairFromSeed seed).2.bytes := rfl

/-- The shared secret is the caller's own seed, whoever the other party is. -/
theorem generateSharedSecret_eq_seed {seed : ByteString} (hseed : seed.length = 32)
    (other : ByteString) :
    generateSharedSecret (generateKeyPairFromSeed seed).1 (generateKeyPairFromSeed other).2 =
      seed := by
  rw [generateSharedSecret, x25519SharedSecret, privateKey_eq, List.append_assoc,
    sha3_256_append_of_lt hseed]
  rw [List.length_append, length_publicKey, length_publicKey]
  decide

/-- One party reads what the other has encrypted exactly when the two seeds agree on the
length of the plaintext. -/
theorem decrypt_encrypt_iff {seedA seedB : ByteString} (hA : seedA.length = 32)
    (hB : seedB.length = 32) (nonce p : ByteString) :
    decryptWithSharedSecret
        (generateSharedSecret (generateKeyPairFromSeed seedB).1 (generateKeyPairFromSeed seedA).2)
        nonce
        (encryptWithSharedSecret
          (generateSharedSecret (generateKeyPairFromSeed seedA).1
            (generateKeyPairFromSeed seedB).2) nonce p) = some p ↔
      seedA.take p.length = seedB.take p.length := by
  rw [generateSharedSecret_eq_seed hA, generateSharedSecret_eq_seed hB,
    decryptWithSharedSecret_eq_some_iff, take_sha3_256_append_eq_iff hA hB]

def seedOf (n : UInt8) : ByteString := List.replicate 32 n

theorem decrypt_encrypt_seedOf_zero :
    (seedOf 0).length = 32 ∧
      decryptWithSharedSecret
        (generateSharedSecret (generateKeyPairFromSeed (seedOf 0)).1
          (generateKeyPairFromSeed (seedOf 0)).2) [7]
        (encryptWithSharedSecret
          (generateSharedSecret (generateKeyPairFromSeed (seedOf 0)).1
            (generateKeyPairFromSeed (seedOf 0)).2) [7] [1, 2, 3]) = some [1, 2, 3] :=
  ⟨rfl, (decrypt_encrypt_iff rfl rfl [7] [1, 2, 3]).mpr rfl⟩

/-- Two parties with the seeds of zeros and of ones do not understand each other. -/
theorem decrypt_encrypt_seedOf_one :
    (seedOf 0).length = 32 ∧ (seedOf 1).length = 32 ∧
      decryptWithSharedSecret
        (generateSharedSecret (generateKeyPairFromSeed (seedOf 1)).1
          (generateKeyPairFromSeed (seedOf 0)).2) []
        (encryptWithSharedSecret
          (generateSharedSecret (generateKeyPairFromSeed (seedOf 0)).1
            (generateKeyPairFromSeed (seedOf 1)).2) [] [42]) ≠ some [42] := by
  refine ⟨rfl, rfl, ?_⟩
  decide +kernel

end Crypto

end Protocol

end CryptoCoin
