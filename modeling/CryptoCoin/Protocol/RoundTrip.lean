import CryptoCoin.Protocol.Crypto

/-!
# Does a signature verify

`sign` hashes the commitment, the private key of 64 bytes and the message, `verify`
the commitment, the public key of 32 bytes and the message, each followed by 32
zeros. The hash keeps the commitment, which fills the place of the first 32 bytes,
and loses the 104 bytes behind it. So the keys never enter, but the message does, and
at different positions: the signer hashes what follows 40 bytes of it, the verifier
what follows 72.

Up to 7 bytes nothing of the message is left on either side and the signature
verifies, for every other message of that length as well. From 8 to 39 bytes only the
signer hashes something, and the signature never verifies. From 40 bytes on the two
rests must have the same hash.
-/

namespace CryptoCoin

namespace Protocol

namespace Crypto

theorem sha3_256_replicate_zero_ne {n : ℕ} (hn : n < 32) :
    sha3_256 (List.replicate n 0) ≠ List.replicate 32 0 := by
  have hall : ∀ k : Fin 32, sha3_256 (List.replicate k 0) ≠ List.replicate 32 0 := by
    decide +kernel
  exact hall ⟨n, hn⟩

theorem eq_absorb_iff {r h : ByteString} (hr : r.length = 32) (hh : h.length = 32) :
    absorb r h = r ↔ h = List.replicate 32 0 := by
  have hzero : absorb r (List.replicate 32 0) = r := absorb_replicate_zero hr.le
  conv_lhs => rw [← hzero]
  rw [absorb_assoc, absorb_zero hh, absorb_left_inj (hh.trans hr.symm) (by rw [hr]; rfl)]

/-- The hash of the signer of one message and of the verifier of another of the same
length, with a private key of 64 bytes and a public key of 32 bytes. -/
theorem sha3_256_signer_eq_verifier_iff {r privKey pubKey : ByteString} (hr : r.length = 32)
    (hpriv : privKey.length = 64) (hpub : pubKey.length = 32) {msg msg' : ByteString}
    (hlen : msg'.length = msg.length) :
    sha3_256 (r ++ privKey ++ msg ++ List.replicate 32 0) =
        sha3_256 (r ++ pubKey ++ msg' ++ List.replicate 32 0) ↔
      msg.length < 8 ∨
        40 ≤ msg.length ∧
          sha3_256 ((extended msg).drop 40) = sha3_256 ((extended msg').drop 72) := by
  rw [sha3_256_keyed hr (by rw [hpriv]; decide), sha3_256_keyed hr (by rw [hpub]; decide), hpriv,
    hpub, hlen]
  rcases lt_or_ge msg.length 8 with hshort | hlong
  · rw [if_pos (by omega), if_pos (by omega)]
    exact iff_of_true rfl (Or.inl hshort)
  · rw [if_neg (by omega)]
    rcases lt_or_ge msg.length 40 with hmiddle | hbig
    · -- the signer hashes zeros behind the message, the verifier nothing
      rw [if_pos (by omega), drop_extended (by omega), eq_absorb_iff hr (length_sha3_256 _)]
      refine iff_of_false (sha3_256_replicate_zero_ne (by omega)) ?_
      omega
    · rw [if_neg (by omega), absorb_left_inj (by rw [length_sha3_256, hr])
        (by rw [length_sha3_256, hr])]
      constructor
      · intro heq
        exact Or.inr ⟨hbig, heq⟩
      · rintro (hshort | ⟨_, heq⟩)
        · omega
        · exact heq

theorem verify_ed25519Sign_of_length_eq {seed : ByteString} (hseed : seed.length = 32)
    {msg msg' : ByteString} (hlen : msg'.length = msg.length) :
    verify (generateKeyPairFromSeed seed).2
        ⟨ed25519Sign (generateKeyPairFromSeed seed).1.bytes msg⟩ msg' = true ↔
      msg.length < 8 ∨
        40 ≤ msg.length ∧
          sha3_256 ((extended msg).drop 40) = sha3_256 ((extended msg').drop 72) := by
  have hpub : (generateKeyPairFromSeed seed).2.bytes.length = 32 := by
    simp [generateKeyPairFromSeed, ed25519Keypair, take_sha3_512]
  have hpriv : (generateKeyPairFromSeed seed).1.bytes.length = 64 := by
    simp [generateKeyPairFromSeed, ed25519Keypair, take_sha3_512, hseed]
  generalize (generateKeyPairFromSeed seed).1 = privKey at hpriv
  generalize (generateKeyPairFromSeed seed).2 = pubKey at hpub
  simp only [ed25519Sign, take_sha3_512]
  rw [verify_append_iff pubKey (length_sha3_256 _),
    sha3_256_signer_eq_verifier_iff (length_sha3_256 _) hpriv hpub hlen]

/-- A signature under the keys of a 32-byte seed verifies exactly when the message
has less than 8 bytes, or at least 40 and the rests from position 40 and from
position 72 have the same hash. The seed plays no role. -/
theorem sign_verify_iff {seed : ByteString} (hseed : seed.length = 32) (msg : ByteString) :
    (∃ sig, sign (generateKeyPairFromSeed seed).1 msg = some sig ∧
        verify (generateKeyPairFromSeed seed).2 sig msg = true) ↔
      msg.length < 8 ∨
        40 ≤ msg.length ∧
          sha3_256 ((extended msg).drop 40) = sha3_256 ((extended msg).drop 72) := by
  simp only [sign_eq_some, Option.some.injEq, exists_eq_left']
  exact verify_ed25519Sign_of_length_eq hseed rfl

theorem sign_verify_three :
    (List.replicate 32 (7 : UInt8)).length = 32 ∧
      ∃ sig, sign (generateKeyPairFromSeed (List.replicate 32 7)).1 [1, 2, 3] = some sig ∧
        verify (generateKeyPairFromSeed (List.replicate 32 7)).2 sig [1, 2, 3] = true :=
  ⟨List.length_replicate,
    (sign_verify_iff List.length_replicate [1, 2, 3]).mpr (Or.inl (by decide))⟩

/-- The signature of a message of 32 bytes does not verify. -/
theorem sign_not_verify :
    (List.replicate 32 (0 : UInt8)).length = 32 ∧
      ¬ ∃ sig, sign (generateKeyPairFromSeed (List.replicate 32 0)).1 (List.replicate 32 1) =
          some sig ∧
        verify (generateKeyPairFromSeed (List.replicate 32 0)).2 sig (List.replicate 32 1) =
          true := by
  refine ⟨rfl, ?_⟩
  rintro ⟨sig, hsign, hverify⟩
  rw [sign_eq_some, Option.some.injEq] at hsign
  rw [← hsign] at hverify
  exact absurd hverify (by decide +kernel)

/-! ### Other messages -/

/-- Up to 32 bytes, the signature of a message is refused for another message of the
same length exactly when they have at least 8 bytes. From there on it is refused for the
message itself, too. -/
theorem sign_binds_iff {seed : ByteString} (hseed : seed.length = 32) {msg msg' : ByteString}
    (hlen : msg'.length = msg.length) (hle : msg.length ≤ 32) :
    (∀ sig, sign (generateKeyPairFromSeed seed).1 msg = some sig →
        verify (generateKeyPairFromSeed seed).2 sig msg' = false) ↔
      8 ≤ msg.length := by
  simp only [sign_eq_some, Option.some.injEq, forall_eq']
  rw [← Bool.not_eq_true, verify_ed25519Sign_of_length_eq hseed hlen]
  omega

theorem sign_binds_eight :
    (List.replicate 32 (0 : UInt8)).length = 32 ∧
      (List.replicate 8 (2 : UInt8)).length = (List.replicate 8 (1 : UInt8)).length ∧
      (List.replicate 8 (1 : UInt8)).length ≤ 32 ∧
      ∀ sig, sign (generateKeyPairFromSeed (List.replicate 32 0)).1 (List.replicate 8 1) =
          some sig →
        verify (generateKeyPairFromSeed (List.replicate 32 0)).2 sig (List.replicate 8 2) =
          false := by
  refine ⟨rfl, rfl, by decide, (sign_binds_iff ?_ ?_ ?_).mpr ?_⟩
  · rfl
  · rfl
  · decide
  · decide

/-- Of 7 bytes, the signature of zeros is accepted for ones. -/
theorem sign_not_binds :
    List.replicate 7 (0 : UInt8) ≠ List.replicate 7 1 ∧
      ¬ ∀ sig, sign (generateKeyPairFromSeed (List.replicate 32 0)).1 (List.replicate 7 0) =
          some sig →
        verify (generateKeyPairFromSeed (List.replicate 32 0)).2 sig (List.replicate 7 1) =
          false := by
  refine ⟨by decide, ?_⟩
  intro h
  have hrefused := h _ (sign_eq_some _ _)
  exact absurd hrefused (by decide +kernel)

end Crypto

end Protocol

end CryptoCoin
