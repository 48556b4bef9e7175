import CryptoCoin.Consensus.Engine
import Mathlib.Algebra.Group.Nat.Defs
import Mathlib.Data.Int.ModEq
import Mathlib.Data.List.Nodup

/-!
# The rotation of proposers

`roundProposer` takes the active validator at the position that the round leaves modulo
their number. The round is a 64-bit word and is read as a signed number first, so from
round `2 ^ 63` on the positions continue those of `-2 ^ 63`. Unless the number of
active validators divides `2 ^ 64`, a window of rounds across this border selects some
position twice, and misses another one (`rotatesFrom_iff`).
-/

namespace CryptoCoin

namespace Consensus

open Protocol (ValidatorId)

def roundAfter (round : ConsensusRound) (k : ℕ) : ConsensusRound :=
  ⟨round.unConsensusRound + UInt64.ofNat k⟩

/-- The position among `n` active validators that `roundProposer` selects. -/
def proposerPosition (round : ConsensusRound) (n : ℕ) : ℕ :=
  (Int.bmod round.unConsensusRound.toNat (2 ^ 64) % (n : ℤ)).toNat

theorem roundProposer_eq_getElem? {vset : ValidatorSet} (h : activeValidators vset ≠ [])
    (round : ConsensusRound) :
    roundProposer round vset =
      ((activeValidators vset)[proposerPosition round (activeValidators vset).length]?).map
        fun v => ⟨v.viAddress⟩ :=
  if_neg (List.length_pos_iff.mpr h).ne'

theorem proposerPosition_lt (round : ConsensusRound) {n : ℕ} (hn : 0 < n) :
    proposerPosition round n < n :=
  (Int.toNat_lt' hn).mpr (Int.emod_lt_of_pos _ (Int.natCast_pos.mpr hn))

/-! ### Windows of rounds -/

def signedRound (r k : ℕ) : ℤ :=
  if r + k < 2 ^ 63 then (r : ℤ) + k else (r : ℤ) + k - 2 ^ 64

theorem bmod_eq_signedRound {r k : ℕ} (h : r + k < 2 ^ 64) :
    Int.bmod (r + k : ℕ) (2 ^ 64) = signedRound r k := by
  rw [signedRound, Int.bmod]
  split
  · split
    · omega
    · omega
  · split
    · omega
    · omega

theorem proposerPosition_roundAfter {round : ConsensusRound} {n k : ℕ} (hn : 0 < n)
    (h : round.unConsensusRound.toNat + k < 2 ^ 64) :
    (proposerPosition (roundAfter round k) n : ℤ) =
      signedRound round.unConsensusRound.toNat k % (n : ℤ) := by
  have hword : (roundAfter round k).unConsensusRound.toNat =
      round.unConsensusRound.toNat + k := by
    rw [roundAfter, UInt64.toNat_add, UInt64.toNat_ofNat', Nat.add_mod_mod,
      Nat.mod_eq_of_lt (by omega)]
  unfold proposerPosition
  rw [hword, bmod_eq_signedRound h]
  exact Int.toNat_of_nonneg (Int.emod_nonneg _ (Int.natCast_ne_zero.mpr hn.ne'))

theorem eq_of_modEq_shift {f : ℕ → ℤ} {c : ℤ} {n : ℕ}
    (h : ∀ k < n, f k ≡ c + (k : ℤ) [ZMOD n]) {i j : ℕ} (hi : i < n) (hj : j < n)
    (heq : f i ≡ f j [ZMOD n]) : i = j := by
  have hshift : c + (i : ℤ) ≡ c + (j : ℤ) [ZMOD n] := ((h i hi).symm.trans heq).trans (h j hj)
  have hindex : (i : ℤ) ≡ (j : ℤ) [ZMOD n] := Int.ModEq.add_left_cancel' c hshift
  exact Nat.ModEq.eq_of_lt_of_lt (Int.natCast_modEq_iff.mp hindex) hi hj

/-- A window on one side of the border, or of a length that divides `2 ^ 64`, has no position
twice. -/
theorem eq_of_signedRound_modEq {r n : ℕ}
    (h : r + n ≤ 2 ^ 63 ∨ 2 ^ 63 ≤ r ∨ n ∣ 2 ^ 64) {i j : ℕ} (hi : i < n) (hj : j < n)
    (heq : signedRound r i ≡ signedRound r j [ZMOD n]) : i = j := by
  rcases h with hbelow | habove | hdvd
  · refine eq_of_modEq_shift (c := r) ?_ hi hj heq
    intro k hk
    rw [signedRound, if_pos (by omega)]
  · refine eq_of_modEq_shift (c := (r : ℤ) - 2 ^ 64) ?_ hi hj heq
    intro k _
    rw [signedRound, if_neg (by omega), sub_add_eq_add_sub]
  · refine eq_of_modEq_shift (c := r) ?_ hi hj heq
    intro k _
    rw [signedRound]
    split
    · rfl
    · have hzero : (2 : ℤ) ^ 64 ≡ 0 [ZMOD n] := by
        rw [Int.modEq_zero_iff_dvd]
        exact_mod_cast Int.natCast_dvd_natCast.mpr hdvd
      simpa only [sub_zero] using Int.ModEq.sub_left ((r : ℤ) + k) hzero

/-- Across the border two rounds of a window have the same position: the border shifts the
positions by what `2 ^ 64` leaves modulo `n`. -/
theorem exists_signedRound_modEq {r n : ℕ} (hbelow : r < 2 ^ 63) (habove : 2 ^ 63 < r + n)
    (hdvd : ¬ n ∣ 2 ^ 64) :
    ∃ i j, i < n ∧ j < n ∧ i ≠ j ∧ signedRound r i ≡ signedRound r j [ZMOD n] := by
  have hshift : 0 < 2 ^ 64 % n := Nat.pos_of_ne_zero fun h => hdvd (Nat.dvd_of_mod_eq_zero h)
  have hlt : 2 ^ 64 % n < n := Nat.mod_lt _ (by omega)
  have hdiv : (n : ℤ) * (2 ^ 64 / n : ℕ) + (2 ^ 64 % n : ℕ) = 2 ^ 64 := by
    exact_mod_cast Nat.div_add_mod (2 ^ 64) n
  generalize 2 ^ 64 % n = d at hshift hlt hdiv
  refine ⟨2 ^ 63 - r - d, 2 ^ 63 - r - d + d, by omega, by omega, by omega, ?_⟩
  rw [signedRound, if_pos (by omega), signedRound, if_neg (by omega)]
  apply Int.modEq_of_dvd
  refine ⟨-(2 ^ 64 / n : ℕ), ?_⟩
  rw [Int.mul_neg]
  push_cast at hdiv ⊢
  omega

/-! ### Rotation -/

theorem map_range_perm_iff {f : ℕ → ℕ} {n : ℕ} (hf : ∀ k, f k < n) :
    ((List.range n).map f).Perm (List.range n) ↔ ∀ i < n, ∀ j < n, f i = f j → i = j := by
  constructor
  · intro hperm i hi j hj heq
    have hnodup : ((List.range n).map f).Nodup := hperm.nodup_iff.mpr List.nodup_range
    exact List.inj_on_of_nodup_map hnodup (List.mem_range.mpr hi) (List.mem_range.mpr hj) heq
  · intro hinj
    have hnodup : ((List.range n).map f).Nodup := by
      apply List.Nodup.map_on _ List.nodup_range
      intro i hi j hj heq
      exact hinj i (List.mem_range.mp hi) j (List.mem_range.mp hj) heq
    have hsubset : (List.range n).map f ⊆ List.range n := by
      intro x hx
      obtain ⟨k, _, rfl⟩ := List.mem_map.mp hx
      exact List.mem_range.mpr (hf k)
    exact (List.subperm_of_subset hnodup hsubset).perm_of_length_le (by simp)

/-- In the rounds from `round` on, as many as there are active validators, the selected
positions are in range and each position is selected once. -/
def RotatesFrom (vset : ValidatorSet) (round : ConsensusRound) : Prop :=
  let active := activeValidators vset
  let position := fun k => proposerPosition (roundAfter round k) active.length
  (∀ k < active.length, position k < active.length ∧
      roundProposer (roundAfter round k) vset =
        (active[position k]?).map fun v => ⟨v.viAddress⟩) ∧
    ((List.range active.length).map position).Perm (List.range active.length)

/-- The proposers rotate exactly when the window does not cross round `2 ^ 63` or the number
of active validators divides `2 ^ 64`. -/
theorem rotatesFrom_iff {vset : ValidatorSet} {round : ConsensusRound}
    (hactive : activeValidators vset ≠ [])
    (hlast : round.unConsensusRound.toNat + (activeValidators vset).length - 1 < 2 ^ 64) :
    RotatesFrom vset round ↔
      round.unConsensusRound.toNat + (activeValidators vset).length ≤ 2 ^ 63 ∨
        2 ^ 63 ≤ round.unConsensusRound.toNat ∨ (activeValidators vset).length ∣ 2 ^ 64 := by
  have hpos : 0 < (activeValidators vset).length := List.length_pos_iff.mpr hactive
  have hposition : ∀ i < (activeValidators vset).length, ∀ j < (activeValidators vset).length,
      proposerPosition (roundAfter round i) (activeValidators vset).length =
          proposerPosition (roundAfter round j) (activeValidators vset).length ↔
        signedRound round.unConsensusRound.toNat i ≡
          signedRound round.unConsensusRound.toNat j [ZMOD (activeValidators vset).length] := by
    intro i hi j hj
    rw [← Int.natCast_inj, proposerPosition_roundAfter hpos (by omega),
      proposerPosition_roundAfter hpos (by omega), Int.ModEq]
  rw [RotatesFrom, map_range_perm_iff fun k => proposerPosition_lt _ hpos, and_iff_right]
  · constructor
    · intro hinj
      by_contra hcross
      rw [not_or, not_or, not_le, not_le] at hcross
      obtain ⟨i, j, hi, hj, hne, heq⟩ :=
        exists_signedRound_modEq hcross.2.1 hcross.1 hcross.2.2
      exact hne (hinj i hi j hj ((hposition i hi j hj).mpr heq))
    · intro h i hi j hj heq
      exact eq_of_signedRound_modEq h hi hj ((hposition i hi j hj).mp heq)
  · intro k _
    exact ⟨proposerPosition_lt _ hpos, roundProposer_eq_getElem? hactive _⟩

open ThreeValidators in
/-- From round 0 on each of three validators proposes once. -/
theorem rotatesFrom_zero :
    activeValidators vset ≠ [] ∧ (0 : UInt64).toNat + (activeValidators vset).length - 1 < 2 ^ 64 ∧
      RotatesFrom vset ⟨0⟩ := by
  have hactive : activeValidators vset ≠ [] := by decide
  exact ⟨hactive, by decide, (rotatesFrom_iff hactive (by decide)).mpr (Or.inl (by decide))⟩

open ThreeValidators in
/-- In the last round below `2 ^ 63` and in the next one the second of three validators
proposes, and the first one is left out. -/
theorem not_rotatesFrom_border :
    (0x7fffffffffffffff : UInt64).toNat + (activeValidators vset).length - 1 < 2 ^ 64 ∧
      ((List.range 3).map fun k =>
        proposerPosition (roundAfter ⟨0x7fffffffffffffff⟩ k) (activeValidators vset).length) =
        [1, 1, 2] ∧
      ¬ RotatesFrom vset ⟨0x7fffffffffffffff⟩ := by
  have hpositions : ((List.range 3).map fun k =>
      proposerPosition (roundAfter ⟨0x7fffffffffffffff⟩ k) (activeValidators vset).length) =
      [1, 1, 2] := by decide
  refine ⟨by decide, hpositions, ?_⟩
  intro h
  have hperm : [1, 1, 2].Perm (List.range 3) := hpositions ▸ h.2
  exact absurd (hperm.nodup_iff.mpr List.nodup_range) (by decide)

end Consensus

end CryptoCoin
