import CryptoCoin.Consensus.Types

/-!
# The super-majority threshold

`superMajority` decides every quorum of the protocol. It is compared with three readings of
"more than two thirds":

* the exact threshold `requiredMajority` of the tests, from which it differs when three
  times the power of the voters and twice the total wrap around a word differently
  (`superMajority_iff_requiredMajority_iff`);
* the power of active validators alone: the status of a validator is not looked at, so
  voters that are not active may tip the result (`superMajority_activeVoters_iff`);
* the head count `superMajorityCount`, with which it agrees for equal powers
  (`superMajority_iff_superMajorityCount_le`).
-/

namespace CryptoCoin

namespace Consensus

open Protocol (ValidatorId)

/-! ### Exact power -/

def requiredMajority (vset : ValidatorSet) : ℕ :=
  2 * vset.vsTotalPower.unValidatorPower.toNat / 3 + 1

def exactPower (vset : ValidatorSet) (voters : Finset ValidatorId) : ℕ :=
  QuorumSystem.weight vset.members (· ∈ voters)

/-- The order of two numbers is that of what is left of them in 64-bit words: they wrap
around equally often, or the one that wraps around more often has more left as well. -/
def WrapsInOrder (a b : ℕ) : Prop :=
  a / 2 ^ 64 = b / 2 ^ 64 ∨
    (a / 2 ^ 64 < b / 2 ^ 64 ∧ a % 2 ^ 64 < b % 2 ^ 64) ∨
    (b / 2 ^ 64 < a / 2 ^ 64 ∧ b % 2 ^ 64 ≤ a % 2 ^ 64)

theorem mod_lt_mod_iff_lt_iff (a b : ℕ) :
    (a % 2 ^ 64 < b % 2 ^ 64 ↔ a < b) ↔ WrapsInOrder a b := by
  rw [WrapsInOrder]
  omega

/-- `superMajority` is the exact test of the voters' power exactly when twice the total and
three times the power keep their order in 64-bit words. -/
theorem superMajority_iff_requiredMajority_iff (vset : ValidatorSet)
    (voters : Finset ValidatorId) :
    (superMajority vset voters = true ↔ requiredMajority vset ≤ exactPower vset voters) ↔
      WrapsInOrder (2 * vset.vsTotalPower.unValidatorPower.toNat)
        (3 * exactPower vset voters) := by
  have hexact : requiredMajority vset ≤ exactPower vset voters ↔
      2 * vset.vsTotalPower.unValidatorPower.toNat < 3 * exactPower vset voters := by
    rw [requiredMajority]
    omega
  rw [superMajority_iff_mod, hexact]
  exact mod_lt_mod_iff_lt_iff _ _

open ThreeValidators in
/-- Two validators that hold `2 ^ 63` together, one of them a single unit. -/
def unevenPair : ValidatorSet :=
  { vsValidators := [(0, 1), (1, 0x7fffffffffffffff)].map fun (n, power) =>
      ⟨(validator n).address, ⟨power⟩, .active⟩
    vsTotalPower := ⟨0x8000000000000000⟩ }

open ThreeValidators in
/-- Twice the total is zero in a word, and a single unit is a super-majority. -/
theorem unevenPair_superMajority :
    superMajority unevenPair {validator 0} = true ∧
      exactPower unevenPair {validator 0} < requiredMajority unevenPair := by
  decide

/-! ### Active validators -/

def activeIds (vset : ValidatorSet) : Finset ValidatorId :=
  ((activeValidators vset).map fun v => (⟨v.viAddress⟩ : ValidatorId)).toFinset

theorem exactPower_inter_add_sdiff (vset : ValidatorSet) (voters ids : Finset ValidatorId) :
    exactPower vset (voters ∩ ids) + exactPower vset (voters \ ids) = exactPower vset voters := by
  simp only [exactPower, Finset.mem_inter, Finset.mem_sdiff]
  exact QuorumSystem.weight_and_add_weight_and_not vset.members

/-- In 64-bit words, adding `extra` to `base` does not cross the threshold: below it, `extra`
is at most what is missing or so much that the sum wraps around; above it, the sum does not
wrap around or exceeds the threshold once more. -/
def StaysOnSide (threshold base extra : ℕ) : Prop :=
  if base ≤ threshold then base + extra ≤ threshold ∨ 2 ^ 64 ≤ base + extra
  else base + extra < 2 ^ 64 ∨ 2 ^ 64 + threshold < base + extra

theorem staysOnSide_iff {threshold base extra : ℕ} (hthreshold : threshold < 2 ^ 64)
    (hbase : base < 2 ^ 64) (hextra : extra < 2 ^ 64) :
    (threshold < (base + extra) % 2 ^ 64 ↔ threshold < base) ↔
      StaysOnSide threshold base extra := by
  rw [StaysOnSide]
  split
  · omega
  · omega

/-- The voters that are not active make no difference exactly when three times their power
does not take three times the power of the active ones across the threshold. -/
theorem superMajority_activeVoters_iff (vset : ValidatorSet) (voters : Finset ValidatorId) :
    superMajority vset voters = superMajority vset (voters ∩ activeIds vset) ↔
      StaysOnSide (2 * vset.vsTotalPower.unValidatorPower.toNat % 2 ^ 64)
        (3 * exactPower vset (voters ∩ activeIds vset) % 2 ^ 64)
        (3 * exactPower vset (voters \ activeIds vset) % 2 ^ 64) := by
  have hpos : 0 < 2 ^ 64 := Nat.two_pow_pos 64
  have hsum : 3 * exactPower vset voters % 2 ^ 64 =
      (3 * exactPower vset (voters ∩ activeIds vset) % 2 ^ 64 +
        3 * exactPower vset (voters \ activeIds vset) % 2 ^ 64) % 2 ^ 64 := by
    rw [← exactPower_inter_add_sdiff vset voters (activeIds vset), Nat.mul_add, Nat.add_mod]
  rw [← staysOnSide_iff (Nat.mod_lt _ hpos) (Nat.mod_lt _ hpos) (Nat.mod_lt _ hpos), ← hsum,
    Bool.eq_iff_iff, superMajority_iff_mod, superMajority_iff_mod]
  rfl

open ThreeValidators in
/-- Three validators of equal power, two of them jailed. -/
def jailedPair : ValidatorSet :=
  { vsValidators := [(0, .active), (1, .jailed), (2, .jailed)].map fun (n, status) =>
      ⟨(validator n).address, ⟨1⟩, status⟩
    vsTotalPower := ⟨3⟩ }

open ThreeValidators in
/-- The votes of the jailed validators make up the quorum. -/
theorem jailedPair_superMajority :
    superMajority jailedPair {validator 0, validator 1, validator 2} = true ∧
      superMajority jailedPair
        ({validator 0, validator 1, validator 2} ∩ activeIds jailedPair) = false := by
  decide

/-! ### Head counts -/

/-- An `Int` in the source; no list is so long that twice its length wraps around. -/
def validatorSetSize (vset : ValidatorSet) : ℤ := vset.vsValidators.length

def superMajorityCount (vset : ValidatorSet) : ℤ :=
  let n := validatorSetSize vset
  n * 2 / 3 + 1

def voterCount (vset : ValidatorSet) (voters : Finset ValidatorId) : ℕ :=
  (vset.vsValidators.filter fun v => (⟨v.viAddress⟩ : ValidatorId) ∈ voters).length

section EqualPowers

variable {vset : ValidatorSet} {power : ValidatorPower}

theorem members_snd (h : ∀ v ∈ vset.vsValidators, v.viPower = power) :
    ∀ m ∈ vset.members, m.2 = power.unValidatorPower.toNat := by
  intro m hm
  obtain ⟨v, hv, rfl⟩ := List.mem_map.mp hm
  rw [h v hv]

theorem exactPower_eq_mul (h : ∀ v ∈ vset.vsValidators, v.viPower = power)
    (voters : Finset ValidatorId) :
    exactPower vset voters = voterCount vset voters * power.unValidatorPower.toNat := by
  rw [exactPower, QuorumSystem.weight_eq_mul vset.members (members_snd h), ValidatorSet.members,
    List.filter_map, List.length_map]
  rfl

theorem total_members_eq_mul (h : ∀ v ∈ vset.vsValidators, v.viPower = power) :
    QuorumSystem.total vset.members =
      vset.vsValidators.length * power.unValidatorPower.toNat := by
  rw [QuorumSystem.total_eq_mul vset.members (members_snd h), ValidatorSet.members,
    List.length_map]

end EqualPowers

/-- For equal powers the test of the power is the test of the number of voters. The addresses
need not be distinct. -/
theorem superMajority_iff_superMajorityCount_le {vset : ValidatorSet} {power : ValidatorPower}
    (hpos : 0 < power.unValidatorPower.toNat)
    (hpower : ∀ v ∈ vset.vsValidators, v.viPower = power)
    (htotal : vset.vsTotalPower.unValidatorPower.toNat =
      vset.vsValidators.length * power.unValidatorPower.toNat)
    (hbound : 3 * vset.vsValidators.length * power.unValidatorPower.toNat < 2 ^ 64)
    (voters : Finset ValidatorId) :
    superMajority vset voters = true ↔
      superMajorityCount vset ≤ (voterCount vset voters : ℤ) := by
  have hmembers := total_members_eq_mul hpower
  have hexact : vset.Exact := by
    refine ⟨htotal.trans hmembers.symm, ?_⟩
    rwa [hmembers, ← Nat.mul_assoc]
  have hweight : QuorumSystem.weight vset.members (· ∈ voters) =
      voterCount vset voters * power.unValidatorPower.toNat := exactPower_eq_mul hpower voters
  rw [superMajority_iff hexact, hmembers, hweight, ← Nat.mul_assoc, ← Nat.mul_assoc,
    Nat.mul_lt_mul_right hpos, superMajorityCount, validatorSetSize]
  omega

open ThreeValidators in
/-- Of three validators with power 1, all three are needed. -/
theorem equalPowers_jailedPair :
    (0 < (⟨1⟩ : ValidatorPower).unValidatorPower.toNat ∧
        (∀ v ∈ jailedPair.vsValidators, v.viPower = ⟨1⟩) ∧
        jailedPair.vsTotalPower.unValidatorPower.toNat =
          jailedPair.vsValidators.length * (⟨1⟩ : ValidatorPower).unValidatorPower.toNat ∧
        3 * jailedPair.vsValidators.length * (⟨1⟩ : ValidatorPower).unValidatorPower.toNat <
          2 ^ 64) ∧
      (superMajority jailedPair {validator 0, validator 1} = true ↔
        superMajorityCount jailedPair ≤
          (voterCount jailedPair {validator 0, validator 1} : ℤ)) := by
  have hpos : 0 < (⟨1⟩ : ValidatorPower).unValidatorPower.toNat := by decide
  have hpower : ∀ v ∈ jailedPair.vsValidators, v.viPower = ⟨1⟩ := by decide
  exact ⟨⟨hpos, hpower, by decide, by decide⟩,
    superMajority_iff_superMajorityCount_le hpos hpower (by decide) (by decide) _⟩

end Consensus

end CryptoCoin
