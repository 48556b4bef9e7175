import CryptoCoin.Protocol.Encryption

/-!
# Which bytes reach the digest

The sponge has a state of 32 bytes and takes its input in blocks of 136, and absorbing a
block is an exclusive or that stops where the state does. So of every block the first 32
bytes enter the digest, each at its own place and undisturbed by the others, and the 104
bytes behind them are never read (`sha3_256_set_eq_iff`).
-/

namespace CryptoCoin

namespace Protocol

namespace Crypto

theorem take_sha3_256_of_length_lt {x : ByteString} (hx : x.length < 32) :
    (sha3_256 x).take x.length = x := by
  have hlen : 32 ≤ (x ++ padding x.length).length := by
    rw [← padSHA3_eq, length_padSHA3_of_le (by omega)]
    decide
  have hstate : sha3_256 x = (x ++ padding x.length).take 32 := by
    rw [sha3_256_eq_absorbAll, absorbAll_of_length_le _ (by omega)]
    conv_lhs => rw [← List.take_append_drop 32 (x ++ padding x.length)]
    rw [absorb_append (by simpa using hlen), absorb_zero (by simpa using hlen)]
  rw [hstate, List.take_take, Nat.min_eq_left hx.le, List.take_left]

theorem sha3_256_append_right_eq_iff {r r' : ByteString} (hr : r.length = 32)
    (hr' : r'.length = 32) (y : ByteString) :
    sha3_256 (r ++ y) = sha3_256 (r' ++ y) ↔ r = r' := by
  have htake := take_sha3_256_append_eq_iff hr hr' y 32
  rwa [List.take_of_length_le (by simp), List.take_of_length_le (by simp),
    List.take_of_length_le hr.le, List.take_of_length_le hr'.le] at htake

theorem sha3_256_append_left_eq_iff {r : ByteString} (hr : r.length = 32) {y y' : ByteString}
    (hlen : y.length = y'.length) :
    sha3_256 (r ++ y) = sha3_256 (r ++ y') ↔
      y.length < 104 ∨ sha3_256 (y.drop 104) = sha3_256 (y'.drop 104) := by
  rw [sha3_256_append hr, sha3_256_append hr, ← hlen]
  by_cases hshort : y.length < 104
  · rw [if_pos hshort, if_pos hshort]
    exact iff_of_true rfl (Or.inl hshort)
  · rw [if_neg hshort, if_neg hshort, absorb_left_inj (by simp [hr]) (by simp [hr])]
    exact (or_iff_right hshort).symm

theorem set_eq_self_iff {x : ByteString} {i : ℕ} (hi : i < x.length) (b : UInt8) :
    x.set i b = x ↔ x[i]? = some b := by
  constructor
  · intro h
    have hbyte : (x.set i b)[i]? = x[i]? := by rw [h]
    rw [← hbyte, List.getElem?_set_self hi]
  · intro h
    obtain ⟨_, rfl⟩ := List.getElem?_eq_some_iff.mp h
    exact List.set_getElem_self hi

/-- Replacing a byte keeps the digest when the byte stands behind the first 32 of its
block, or when it is replaced by itself. -/
theorem sha3_256_set_eq_iff {x : ByteString} {i : ℕ} (hi : i < x.length) (b : UInt8) :
    sha3_256 (x.set i b) = sha3_256 x ↔ 32 ≤ i % rate ∨ x[i]? = some b := by
  -- the input loses one block per step
  induction hn : x.length using Nat.strong_induction_on generalizing x i with
  | _ n ih =>
      rcases lt_or_ge x.length 32 with hshort | hlong
      · have hmod : ¬ 32 ≤ i % rate := by simp only [rate]; omega
        have hset : (x.set i b).length = x.length := List.length_set
        rw [or_iff_right hmod, ← set_eq_self_iff hi]
        constructor
        · intro h
          rw [← take_sha3_256_of_length_lt (hset.trans_lt hshort), h, hset,
            take_sha3_256_of_length_lt hshort]
        · intro h
          rw [h]
      · obtain ⟨r, y, rfl, hr⟩ := exists_append_of_le_length hlong
        have hlen : (r ++ y).length = 32 + y.length := by rw [List.length_append, hr]
        rcases lt_or_ge i 32 with hfirst | hbehind
        · have hmod : ¬ 32 ≤ i % rate := by simp only [rate]; omega
          rw [List.set_append_left _ _ (by omega),
            sha3_256_append_right_eq_iff (by rw [List.length_set, hr]) hr, or_iff_right hmod,
            set_eq_self_iff (by omega), List.getElem?_append_left (by omega)]
        · rw [List.set_append_right _ _ (by omega), hr,
            sha3_256_append_left_eq_iff hr List.length_set, List.length_set]
          rcases lt_or_ge i 136 with hblock | hnext
          · -- the byte is among those that the block loses
            have hmod : 32 ≤ i % rate := by simp only [rate]; omega
            have hdrop : (y.set (i - 32) b).drop 104 = y.drop 104 := by
              rw [List.drop_set_of_lt]
              omega
            rw [hdrop]
            exact iff_of_true (Or.inr rfl) (Or.inl hmod)
          · have hi' : i - 136 < (y.drop 104).length := by rw [List.length_drop]; omega
            have hdrop : (y.set (i - 32) b).drop 104 = (y.drop 104).set (i - 136) b := by
              have hplace : i - 32 - 104 = i - 136 := by omega
              rw [List.drop_set, if_neg (by omega), hplace]
            have hmod : (i - 136) % rate = i % rate := by simp only [rate]; omega
            have hbyte : (y.drop 104)[i - 136]? = (r ++ y)[i]? := by
              have hplace : 104 + (i - 136) = i - 32 := by omega
              rw [List.getElem?_drop, List.getElem?_append_right (by omega), hr, hplace]
            rw [or_iff_right (by omega), hdrop,
              ih _ (by rw [List.length_drop]; omega) hi' rfl, hmod, hbyte]

/-- A byte has an influence on the digest exactly when it is among the first 32 of its
block. -/
theorem hash_reads_iff {x : ByteString} {i : ℕ} (hi : i < x.length) :
    (∃ b : UInt8, hash (x.set i b) ≠ hash x) ↔ i % rate < 32 := by
  have hset : ∀ b, hash (x.set i b) ≠ hash x ↔ i % rate < 32 ∧ x[i] ≠ b := by
    intro b
    rw [hash, hash, Ne, Hash.mk.injEq, sha3_256_set_eq_iff hi, not_or, not_le,
      List.getElem?_eq_getElem hi, Option.some_inj]
  simp only [hset]
  constructor
  · rintro ⟨b, hread, _⟩
    exact hread
  · intro hread
    have hother : x[i] ≠ x[i] + 1 := by
      intro h
      simp at h
    exact ⟨x[i] + 1, hread, hother⟩

theorem hash_reads_second_block :
    136 < (List.replicate 137 (0 : UInt8)).length ∧
      ∃ b : UInt8, hash ((List.replicate 137 0).set 136 b) ≠ hash (List.replicate 137 0) :=
  ⟨by simp, (hash_reads_iff (by simp)).mpr (by decide)⟩

theorem hash_ignores_byte :
    32 < (List.replicate 33 (0 : UInt8)).length ∧
      ¬ ∃ b : UInt8, hash ((List.replicate 33 0).set 32 b) ≠ hash (List.replicate 33 0) := by
  refine ⟨by simp, ?_⟩
  rintro ⟨b, hb⟩
  apply hb
  rw [hash, hash, (sha3_256_set_eq_iff (by simp) b).mpr (Or.inl (by decide))]

end Crypto

end Protocol

end CryptoCoin
