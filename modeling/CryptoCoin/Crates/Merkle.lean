import CryptoCoin.Library.Bits
import CryptoCoin.Library.HashTree
import CryptoCoin.Library.Words
import Mathlib.Data.Finset.Card
import Mathlib.Data.Nat.Log

/-!
# The Merkle crate

The functions of `crypto/merkle`. `[u8; 32]` is a byte list with its length as a
field, `usize` is a natural number with the shift of the padding loop taken
modulo `2 ^ 64`, and `sha3_256`, which comes from a third-party crate, is an
arbitrary function from bytes to hashes.

A function that can panic or loop returns an `Option` whose `none` stands for
that; the source's own `Option` is kept inside.
-/

namespace CryptoCoin

namespace Crates

namespace Merkle

structure Hash where
  bytes : List UInt8
  size : bytes.length = 32
  deriving DecidableEq

theorem Hash.ext_bytes {a b : Hash} (h : a.bytes = b.bytes) : a = b := by
  obtain ⟨x, hx⟩ := a
  obtain ⟨y, hy⟩ := b
  cases h
  rfl

theorem Hash.bytes_inj {a b : Hash} : a.bytes = b.bytes ↔ a = b :=
  ⟨Hash.ext_bytes, congrArg Hash.bytes⟩

theorem Hash.take_bytes_append (a : Hash) (l : List UInt8) : (a.bytes ++ l).take 32 = a.bytes :=
  List.take_left' a.size

theorem Hash.drop_bytes_append (a : Hash) (l : List UInt8) : (a.bytes ++ l).drop 32 = l :=
  List.drop_left' a.size

def Hash.zero : Hash := ⟨List.replicate 32 0, rfl⟩

abbrev MerkleTree := HashTree Hash

structure MerkleProof where
  index : ℕ
  leaf : Hash
  siblings : List Hash

/-! ### Padding -/

/-- The loop of `next_power_of_two`. A shift drops the bits above the word, so
the loop does not end once `p` has become zero. -/
def nextPowerOfTwoFrom (n : ℕ) : ℕ → ℕ → Option ℕ
  | 0, _ => none
  | fuel + 1, p => if p < n then nextPowerOfTwoFrom n fuel ((p <<< 1) % 2 ^ 64) else some p

/-- After 64 shifts the word is zero, so 65 rounds tell whether the loop ends. -/
def nextPowerOfTwo (n : ℕ) : Option ℕ :=
  if n ≤ 1 then some 1 else nextPowerOfTwoFrom n 65 1

def resize (l : List Hash) (newLen : ℕ) (value : Hash) : List Hash :=
  l.take newLen ++ List.replicate (newLen - l.length) value

def padToPowerOfTwo (hashes : List Hash) : Option (List Hash) :=
  if hashes.isEmpty then some [Hash.zero]
  else
    (nextPowerOfTwo hashes.length).map fun nextPow2 =>
      if hashes.length = nextPow2 then hashes else resize hashes nextPow2 Hash.zero

/-! ### Trees and roots -/

section

variable (sha3_256 : List UInt8 → Hash)

def combineHashes (left right : Hash) : Hash := sha3_256 (left.bytes ++ right.bytes)

def hashLeaf (h : Hash) : Hash := combineHashes sha3_256 h h

/-- On the empty slice the recursion of the source does not end. -/
def buildTree (hashes : List Hash) : Option MerkleTree :=
  HashTree.build? (combineHashes sha3_256) hashes

def computeRoot (hashes : List Hash) : Option Hash :=
  if hashes.isEmpty then some Hash.zero
  else do
    let padded ← padToPowerOfTwo hashes
    let tree ← buildTree sha3_256 padded
    some tree.rootHash

/-! ### Proofs -/

/-- The loop of `MerkleProof::compute_root`, with its two variables. -/
def MerkleProof.climb : Hash → ℕ → List Hash → Hash
  | current, _, [] => current
  | current, idx, sibling :: siblings =>
      let next := if idx % 2 = 0 then combineHashes sha3_256 current sibling
        else combineHashes sha3_256 sibling current
      climb next (idx / 2) siblings

def MerkleProof.computeRoot (proof : MerkleProof) : Hash :=
  climb sha3_256 proof.leaf proof.index proof.siblings

def MerkleProof.verify (proof : MerkleProof) (root : Hash) : Bool :=
  proof.computeRoot sha3_256 = root

end

/-- The loop of `collect_siblings`; every round halves `current`. -/
def collectSiblingsFrom : ℕ → List Hash → ℕ → Option (List Hash)
  | 0, current, _ => if current.length ≤ 1 then some [] else none
  | fuel + 1, current, index =>
      if current.length ≤ 1 then some []
      else do
        let mid := current.length / 2
        let siblingIdx := if index < mid then mid + index % mid else index % mid
        let sibling ← current[siblingIdx]?
        let next := if index < mid then current.take mid else current.drop mid
        let siblings ← collectSiblingsFrom fuel next (index % mid)
        some (sibling :: siblings)

def collectSiblings (hashes : List Hash) (index : ℕ) : Option (List Hash) :=
  if hashes.length ≤ 1 then some [] else collectSiblingsFrom hashes.length hashes index

def generateProof (hashes : List Hash) (index : ℕ) : Option (Option MerkleProof) :=
  if hashes.isEmpty ∨ hashes.length ≤ index then some none
  else do
    let padded ← padToPowerOfTwo hashes
    let leaf ← hashes[index]?
    let siblings ← collectSiblings padded index
    some (some ⟨index, leaf, siblings⟩)

/-! ### What the padding computes -/

theorem nextPowerOfTwoFrom_of_le {n fuel j : ℕ} (hj : j ≤ Nat.clog 2 n)
    (hn : Nat.clog 2 n ≤ 63) (hfuel : Nat.clog 2 n < j + fuel) :
    nextPowerOfTwoFrom n fuel (2 ^ j) = some (2 ^ Nat.clog 2 n) := by
  induction fuel generalizing j with
  | zero => omega
  | succ fuel ih =>
      rw [nextPowerOfTwoFrom]
      by_cases hlt : 2 ^ j < n
      · have hlog : j < Nat.clog 2 n := (Nat.lt_clog_iff_pow_lt Nat.one_lt_two).mpr hlt
        have hshift : (2 ^ j <<< 1) % 2 ^ 64 = 2 ^ (j + 1) := by
          rw [Nat.shiftLeft_eq, ← pow_add]
          exact Nat.mod_eq_of_lt (Nat.pow_lt_pow_right Nat.one_lt_two (by omega))
        rw [if_pos hlt, hshift]
        exact ih hlog (by omega)
      · have hlog : Nat.clog 2 n ≤ j := Nat.clog_le_of_le_pow (Nat.le_of_not_lt hlt)
        rw [if_neg hlt, Nat.le_antisymm hj hlog]

theorem nextPowerOfTwo_eq {n : ℕ} (hn : n ≤ 2 ^ 63) :
    nextPowerOfTwo n = some (2 ^ Nat.clog 2 n) := by
  by_cases hone : n ≤ 1
  · rw [nextPowerOfTwo, if_pos hone, Nat.clog_of_right_le_one hone, pow_zero]
  · have hlog : Nat.clog 2 n ≤ 63 := Nat.clog_le_of_le_pow hn
    rw [nextPowerOfTwo, if_neg hone, ← pow_zero 2]
    exact nextPowerOfTwoFrom_of_le (Nat.zero_le _) hlog (by omega)

theorem of_nextPowerOfTwoFrom {P : ℕ → Prop} (hshift : ∀ q, P q → P ((q <<< 1) % 2 ^ 64))
    {n fuel q p : ℕ} (hq : P q) (h : nextPowerOfTwoFrom n fuel q = some p) : P p ∧ n ≤ p := by
  induction fuel generalizing q with
  | zero => simp [nextPowerOfTwoFrom] at h
  | succ fuel ih =>
      rw [nextPowerOfTwoFrom] at h
      by_cases hlt : q < n
      · rw [if_pos hlt] at h
        exact ih (hshift q hq) h
      · rw [if_neg hlt, Option.some.injEq] at h
        subst h
        exact ⟨hq, Nat.le_of_not_lt hlt⟩

theorem le_of_nextPowerOfTwo {n p : ℕ} (h : nextPowerOfTwo n = some p) : n ≤ p := by
  by_cases hone : n ≤ 1
  · rw [nextPowerOfTwo, if_pos hone, Option.some.injEq] at h
    omega
  · rw [nextPowerOfTwo, if_neg hone] at h
    exact (of_nextPowerOfTwoFrom (P := fun _ => True) (fun _ _ => trivial) trivial h).2

/-- Above `2 ^ 63` no number of rounds ends the loop: the word is a power of two, and then
zero for ever. -/
theorem le_two_pow_of_nextPowerOfTwoFrom {n fuel p : ℕ}
    (h : nextPowerOfTwoFrom n fuel 1 = some p) : n ≤ 2 ^ 63 := by
  have hshift : ∀ q, (q = 0 ∨ ∃ j ≤ 63, q = 2 ^ j) →
      ((q <<< 1) % 2 ^ 64 = 0 ∨ ∃ j ≤ 63, (q <<< 1) % 2 ^ 64 = 2 ^ j) := by
    rintro q (rfl | ⟨j, hj, rfl⟩)
    · exact Or.inl (by decide)
    · rw [Nat.shiftLeft_eq, ← pow_add]
      rcases Nat.lt_or_ge j 63 with hlt | hge
      · refine Or.inr ⟨j + 1, hlt, Nat.mod_eq_of_lt ?_⟩
        exact Nat.pow_lt_pow_right Nat.one_lt_two (by omega)
      · rw [Nat.le_antisymm hj hge]
        exact Or.inl (Nat.mod_self _)
  obtain ⟨rfl | ⟨j, hj, rfl⟩, hle⟩ :=
    of_nextPowerOfTwoFrom hshift (Or.inr ⟨0, Nat.zero_le _, rfl⟩) h
  · exact hle.trans (Nat.zero_le _)
  · exact hle.trans (Nat.pow_le_pow_right Nat.two_pos hj)

theorem le_two_pow_of_nextPowerOfTwo {n p : ℕ} (h : nextPowerOfTwo n = some p) :
    n ≤ 2 ^ 63 := by
  by_cases hone : n ≤ 1
  · exact hone.trans Nat.one_le_two_pow
  · rw [nextPowerOfTwo, if_neg hone] at h
    exact le_two_pow_of_nextPowerOfTwoFrom h

theorem nextPowerOfTwoFrom_add {n fuel q p : ℕ} (h : nextPowerOfTwoFrom n fuel q = some p)
    (more : ℕ) : nextPowerOfTwoFrom n (fuel + more) q = some p := by
  induction fuel generalizing q with
  | zero => cases h
  | succ fuel ih =>
      rw [Nat.add_right_comm, nextPowerOfTwoFrom]
      rw [nextPowerOfTwoFrom] at h
      by_cases hlt : q < n
      · rw [if_pos hlt] at h ⊢
        exact ih h
      · rw [if_neg hlt] at h ⊢
        exact h

/-- The function of the source returns `p`: at once, or after some number of rounds. -/
def NextPowerOfTwoReturns (n p : ℕ) : Prop :=
  if n ≤ 1 then p = 1 else ∃ fuel, nextPowerOfTwoFrom n fuel 1 = some p

/-- The 65 rounds of the model are enough. -/
theorem nextPowerOfTwo_eq_some_iff {n p : ℕ} :
    nextPowerOfTwo n = some p ↔ NextPowerOfTwoReturns n p := by
  by_cases hone : n ≤ 1
  · rw [nextPowerOfTwo, NextPowerOfTwoReturns, if_pos hone, if_pos hone, Option.some_inj,
      eq_comm]
  · rw [NextPowerOfTwoReturns, if_neg hone]
    constructor
    · intro h
      rw [nextPowerOfTwo, if_neg hone] at h
      exact ⟨65, h⟩
    · rintro ⟨fuel, h⟩
      have hmodel := nextPowerOfTwo_eq (le_two_pow_of_nextPowerOfTwoFrom h)
      have hrounds := hmodel
      rw [nextPowerOfTwo, if_neg hone] at hrounds
      have hlong := nextPowerOfTwoFrom_add hrounds fuel
      rw [Nat.add_comm, nextPowerOfTwoFrom_add h 65] at hlong
      rw [hmodel, hlong]

/-- The function returns, and up to `2 ^ 63` the next power of two. -/
def NextPowerOfTwoCorrect (n : ℕ) : Prop :=
  (∃ p, NextPowerOfTwoReturns n p) ∧
    (n ≤ 2 ^ 63 → ∀ p, NextPowerOfTwoReturns n p → Bits.IsNextPowerOfTwo n p)

/-- Up to `2 ^ 63` it does, and above it never returns. -/
theorem nextPowerOfTwoCorrect_iff (n : ℕ) : NextPowerOfTwoCorrect n ↔ n ≤ 2 ^ 63 := by
  constructor
  · rintro ⟨⟨p, hp⟩, _⟩
    exact le_two_pow_of_nextPowerOfTwo (nextPowerOfTwo_eq_some_iff.mpr hp)
  · intro hn
    have hmodel := nextPowerOfTwo_eq hn
    refine ⟨⟨_, nextPowerOfTwo_eq_some_iff.mp hmodel⟩, fun _ p hp => ?_⟩
    rw [← nextPowerOfTwo_eq_some_iff, hmodel, Option.some_inj] at hp
    exact hp ▸ Bits.isNextPowerOfTwo_clog n

/-- One more than `2 ^ 63` is a word for which the loop never ends. -/
theorem nextPowerOfTwo_loops :
    2 ^ 63 + 1 < 2 ^ 64 ∧ ∀ fuel, nextPowerOfTwoFrom (2 ^ 63 + 1) fuel 1 = none := by
  refine ⟨by decide, fun fuel => ?_⟩
  rw [Option.eq_none_iff_forall_ne_some]
  intro p h
  exact absurd (le_two_pow_of_nextPowerOfTwoFrom h) (by decide)

theorem padToPowerOfTwo_eq_some_iff {hashes padded : List Hash} (hne : hashes ≠ []) :
    padToPowerOfTwo hashes = some padded ↔
      ∃ p, nextPowerOfTwo hashes.length = some p ∧
        padded = hashes ++ List.replicate (p - hashes.length) Hash.zero := by
  have hempty : hashes.isEmpty = false := List.isEmpty_eq_false_iff.mpr hne
  have hresize : ∀ p, nextPowerOfTwo hashes.length = some p →
      (if hashes.length = p then hashes else resize hashes p Hash.zero) =
        hashes ++ List.replicate (p - hashes.length) Hash.zero := by
    intro p hp
    by_cases hlen : hashes.length = p
    · rw [if_pos hlen, hlen, Nat.sub_self, List.replicate_zero, List.append_nil]
    · rw [if_neg hlen, resize, List.take_of_length_le (le_of_nextPowerOfTwo hp)]
  simp only [padToPowerOfTwo, hempty, Bool.false_eq_true, if_false, Option.map_eq_some_iff]
  constructor
  · rintro ⟨p, hp, rfl⟩
    exact ⟨p, hp, hresize p hp⟩
  · rintro ⟨p, hp, rfl⟩
    exact ⟨p, hp, hresize p hp⟩

theorem padToPowerOfTwo_of_length_le {hashes : List Hash} (hne : hashes ≠ [])
    (hlen : hashes.length ≤ 2 ^ 63) :
    padToPowerOfTwo hashes = some
      (hashes ++ List.replicate (2 ^ Nat.clog 2 hashes.length - hashes.length) Hash.zero) :=
  (padToPowerOfTwo_eq_some_iff hne).mpr ⟨_, nextPowerOfTwo_eq hlen, rfl⟩

theorem length_padded (hashes : List Hash) :
    (hashes ++ List.replicate (2 ^ Nat.clog 2 hashes.length - hashes.length) Hash.zero).length =
      2 ^ Nat.clog 2 hashes.length := by
  have hle : hashes.length ≤ 2 ^ Nat.clog 2 hashes.length := Nat.le_pow_clog Nat.one_lt_two _
  rw [List.length_append, List.length_replicate, Nat.add_sub_cancel' hle]

theorem computeRoot_eq_some_iff {sha3_256 : List UInt8 → Hash} {hashes : List Hash}
    (hne : hashes ≠ []) {root : Hash} :
    computeRoot sha3_256 hashes = some root ↔
      ∃ padded tree, padToPowerOfTwo hashes = some padded ∧
        HashTree.Halves (combineHashes sha3_256) padded tree ∧ tree.rootHash = root := by
  have hempty : hashes.isEmpty = false := List.isEmpty_eq_false_iff.mpr hne
  simp only [computeRoot, hempty, Bool.false_eq_true, if_false, Option.bind_eq_bind,
    Option.bind_eq_some_iff, buildTree, HashTree.build?_eq_some_iff, Option.some.injEq,
    exists_and_left]

/-! ### Fresh hashes -/

theorem exists_hash_notMem {l : List Hash} (hl : l.length < 2 ^ 63) : ∃ h : Hash, h ∉ l := by
  have hbound : (2 : ℕ) ^ 63 < 256 ^ 32 := by decide
  obtain ⟨n, hn⟩ := Words.exists_beBytes_ne Hash.bytes (hl.trans hbound)
  refine ⟨⟨Words.beBytes 32 n, Words.length_beBytes 32 n⟩, ?_⟩
  intro hmem
  exact hn _ hmem rfl

theorem exists_fresh {l : List Hash} (hl : l.length ≤ 2 ^ 63) :
    ∃ fresh : ℕ → Hash,
      (∀ m < 2 ^ 64, ∀ n < 2 ^ 64, fresh m = fresh n → m = n) ∧ ∀ n, fresh n ∉ l := by
  have hbound : (2 : ℕ) ^ 64 < 256 ^ 16 := by decide
  -- the fresh hashes share a first half that no member of the list has
  obtain ⟨tag, htag⟩ := Words.exists_beBytes_ne (w := 16) (fun h : Hash => h.bytes.take 16)
    (l := l) (by omega)
  refine ⟨fun n => ⟨Words.beBytes 16 tag ++ Words.beBytes 16 n, ?_⟩, ?_, ?_⟩
  · rw [List.length_append, Words.length_beBytes, Words.length_beBytes]
  · intro m hm n hn h
    have hhalf := List.append_cancel_left (congrArg Hash.bytes h)
    exact Words.beBytes_inj (hm.trans hbound) (hn.trans hbound) hhalf
  · intro n hmem
    apply htag _ hmem
    exact List.take_left' (Words.length_beBytes 16 tag)

/-! ### Sample hashes -/

def byteHash (b : UInt8) : Hash := ⟨List.replicate 32 b, List.length_replicate⟩

/-- A hash function that depends on the first byte of both halves. -/
def twoByteHash (input : List UInt8) : Hash :=
  byteHash (2 * input.headD 0 + 3 * (input.drop 32).headD 0)

end Merkle

end Crates

end CryptoCoin
