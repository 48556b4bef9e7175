import Mathlib.Data.Nat.Bitwise
import Mathlib.Data.Nat.Log
import Mathlib.Order.Bounds.Basic

/-!
# Powers of two and single bits

The least power of two that is not below a number, and numbers with one bit flipped.
-/

namespace Bits

/-! ### The next power of two -/

/-- `p` is the least power of two that is at least `n`. -/
def IsNextPowerOfTwo (n p : ℕ) : Prop := IsLeast {q | (∃ j, q = 2 ^ j) ∧ n ≤ q} p

theorem isNextPowerOfTwo_clog (n : ℕ) : IsNextPowerOfTwo n (2 ^ Nat.clog 2 n) := by
  refine ⟨⟨⟨_, rfl⟩, Nat.le_pow_clog Nat.one_lt_two n⟩, ?_⟩
  rintro q ⟨⟨j, rfl⟩, hle⟩
  exact Nat.pow_le_pow_right Nat.two_pos (Nat.clog_le_of_le_pow hle)

theorem isNextPowerOfTwo_self_iff (n : ℕ) : IsNextPowerOfTwo n n ↔ ∃ j, n = 2 ^ j := by
  constructor
  · intro h
    exact h.1.1
  · intro hpow
    exact ⟨⟨hpow, le_rfl⟩, fun q hq => hq.2⟩

/-! ### Flipping a bit -/

def flipBit (n k : ℕ) : ℕ := n ^^^ 2 ^ k

theorem two_pow_add_eq_xor {n d : ℕ} (hn : n < 2 ^ d) : 2 ^ d + n = 2 ^ d ^^^ n := by
  have hhigh : (2 ^ d ^^^ n) / 2 ^ d = 1 := by
    rw [Nat.xor_div_two_pow, Nat.div_self (Nat.two_pow_pos d), Nat.div_eq_of_lt hn, Nat.xor_zero]
  have hlow : (2 ^ d ^^^ n) % 2 ^ d = n := by
    rw [Nat.xor_mod_two_pow, Nat.mod_self, Nat.mod_eq_of_lt hn, Nat.zero_xor]
  calc 2 ^ d + n = 2 ^ d * ((2 ^ d ^^^ n) / 2 ^ d) + (2 ^ d ^^^ n) % 2 ^ d := by
        rw [hhigh, hlow, Nat.mul_one]
    _ = 2 ^ d ^^^ n := Nat.div_add_mod _ _

theorem flipBit_of_lt {n d : ℕ} (hn : n < 2 ^ d) : flipBit n d = 2 ^ d + n := by
  rw [flipBit, two_pow_add_eq_xor hn, Nat.xor_comm]

theorem flipBit_two_pow_add {n d : ℕ} (hn : n < 2 ^ d) : flipBit (2 ^ d + n) d = n := by
  rw [flipBit, two_pow_add_eq_xor hn, Nat.xor_comm, ← Nat.xor_assoc, Nat.xor_self, Nat.zero_xor]

theorem flipBit_lt {n k d : ℕ} (hn : n < 2 ^ d) (hk : k < d) : flipBit n k < 2 ^ d :=
  Nat.xor_lt_two_pow hn (Nat.pow_lt_pow_right Nat.one_lt_two hk)

theorem flipBit_add_of_lt {n k d : ℕ} (hn : n < 2 ^ d) (hk : k < d) :
    flipBit (2 ^ d + n) k = 2 ^ d + flipBit n k := by
  rw [two_pow_add_eq_xor (flipBit_lt hn hk), flipBit, flipBit, two_pow_add_eq_xor hn,
    Nat.xor_assoc]

end Bits
