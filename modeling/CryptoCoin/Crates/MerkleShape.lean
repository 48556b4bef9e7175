import CryptoCoin.Crates.Merkle
import CryptoCoin.Library.HashPath

/-!
# The shape of the crate's trees

Padding makes the number of leaves a power of two, so halving gives a perfect tree
(`buildTree_shape`), and the left spine that `depth` follows is as long as every other
branch.

`collect_siblings` descends in the padded list itself. In a slice of `2 ^ d` hashes the
sibling it takes is the one whose index differs in the highest bit, and the rest happens
in the half of the index. So it collects one element of the list for each bit of the
index, the highest first.
-/

namespace CryptoCoin

namespace Crates

namespace Merkle

open Bits (flipBit IsNextPowerOfTwo)

/-! ### Trees -/

/-- The depth of the leftmost leaf. -/
def MerkleTree.depth : MerkleTree → ℕ
  | .leaf _ => 1
  | .node _ left _ => 1 + MerkleTree.depth left

theorem MerkleTree.depth_of_perfect {d : ℕ} {tree : MerkleTree} (h : tree.Perfect d) :
    MerkleTree.depth tree = d + 1 := by
  induction d generalizing tree with
  | zero =>
      cases tree with
      | leaf x => rfl
      | node x left right => exact h.elim
  | succ d ih =>
      cases tree with
      | leaf x => exact h.elim
      | node x left right => rw [MerkleTree.depth, ih h.1, Nat.add_comm]

/-- The tree over a padded list is perfect. A slice has fewer than `2 ^ 63` members, for
which the padding ends. -/
theorem buildTree_shape (sha3_256 : List UInt8 → Hash) {hashes : List Hash} (hne : hashes ≠ [])
    (hlen : hashes.length ≤ 2 ^ 63) :
    ∃ padded tree, padToPowerOfTwo hashes = some padded ∧
      buildTree sha3_256 padded = some tree ∧
      (∃ k, padded = hashes ++ List.replicate k Hash.zero) ∧
      tree.leaves = padded ∧
      (∀ n ∈ tree.leafDepths, n = MerkleTree.depth tree) ∧
      tree.Hashed (combineHashes sha3_256) ∧
      tree.leaves.length = 2 ^ (MerkleTree.depth tree - 1) ∧
      IsNextPowerOfTwo hashes.length tree.leaves.length := by
  have hpadded := List.append_ne_nil_of_left_ne_nil hne
    (List.replicate (2 ^ Nat.clog 2 hashes.length - hashes.length) Hash.zero)
  obtain ⟨tree, hbuild, hhalves⟩ := HashTree.exists_build? (combineHashes sha3_256) hpadded
  have hperfect := hhalves.perfect (length_padded hashes)
  have hdepth := MerkleTree.depth_of_perfect hperfect
  refine ⟨_, tree, padToPowerOfTwo_of_length_le hne hlen, hbuild, ⟨_, rfl⟩, hhalves.leaves_eq, ?_,
    hhalves.hashed, ?_, ?_⟩
  · intro n hn
    rw [hdepth, hperfect.eq_of_mem_leafDepths hn]
  · rw [hdepth, hperfect.length_leaves, Nat.add_sub_cancel]
  · rw [hperfect.length_leaves]
    exact Bits.isNextPowerOfTwo_clog hashes.length

/-- Three hashes are padded to four, under a tree of depth 3. -/
theorem buildTree_shape_three :
    [byteHash 1, byteHash 2, byteHash 3] ≠ [] ∧
      ∃ padded tree, padToPowerOfTwo [byteHash 1, byteHash 2, byteHash 3] = some padded ∧
        buildTree twoByteHash padded = some tree ∧
        ∀ n ∈ tree.leafDepths, n = MerkleTree.depth tree := by
  have hne : [byteHash 1, byteHash 2, byteHash 3] ≠ [] := List.cons_ne_nil _ _
  obtain ⟨padded, tree, hpad, hbuild, _, _, hdepths, _⟩ :=
    buildTree_shape twoByteHash hne (by decide)
  exact ⟨hne, padded, tree, hpad, hbuild, hdepths⟩

/-! ### Siblings -/

/-- The remainder, which stops the program when the divisor is zero. -/
def checkedRem (a b : ℕ) : Option ℕ := if b = 0 then none else some (a % b)

/-- The loop of `collect_siblings` with a check for every remainder. -/
def collectSiblingsCheckedFrom : ℕ → List Hash → ℕ → Option (List Hash)
  | 0, current, _ => if current.length ≤ 1 then some [] else none
  | fuel + 1, current, index =>
      if current.length ≤ 1 then some []
      else do
        let mid := current.length / 2
        let low ← checkedRem index mid
        let siblingIdx := if index < mid then mid + low else low
        let sibling ← current[siblingIdx]?
        let next := if index < mid then current.take mid else current.drop mid
        let siblings ← collectSiblingsCheckedFrom fuel next low
        some (sibling :: siblings)

def collectSiblingsChecked (hashes : List Hash) (index : ℕ) : Option (List Hash) :=
  if hashes.length ≤ 1 then some [] else collectSiblingsCheckedFrom hashes.length hashes index

/-- No remainder by zero is taken: a slice of two or more has a half with members. -/
theorem collectSiblingsCheckedFrom_eq (fuel : ℕ) (current : List Hash) (index : ℕ) :
    collectSiblingsCheckedFrom fuel current index = collectSiblingsFrom fuel current index := by
  induction fuel generalizing current index with
  | zero => rfl
  | succ fuel ih =>
      rw [collectSiblingsCheckedFrom, collectSiblingsFrom]
      by_cases hone : current.length ≤ 1
      · rw [if_pos hone, if_pos hone]
      · have hmid : current.length / 2 ≠ 0 := by omega
        rw [if_neg hone, if_neg hone]
        simp only [checkedRem, if_neg hmid, Option.bind_eq_bind, Option.bind_some, ih]

theorem collectSiblingsChecked_eq (hashes : List Hash) (index : ℕ) :
    collectSiblingsChecked hashes index = collectSiblings hashes index := by
  rw [collectSiblingsChecked, collectSiblings, collectSiblingsCheckedFrom_eq]

theorem collectSiblingsFrom_of_length_le_one (fuel : ℕ) {current : List Hash}
    (hone : current.length ≤ 1) (index : ℕ) :
    collectSiblingsFrom fuel current index = some [] := by
  cases fuel with
  | zero => rw [collectSiblingsFrom, if_pos hone]
  | succ fuel => rw [collectSiblingsFrom, if_pos hone]

theorem collectSiblings_eq_from (hashes : List Hash) (index : ℕ) :
    collectSiblings hashes index = collectSiblingsFrom hashes.length hashes index := by
  rw [collectSiblings]
  split_ifs with hone
  · rw [collectSiblingsFrom_of_length_le_one _ hone]
  · rfl

theorem collectSiblingsFrom_succ {fuel mid : ℕ} (hmid : 0 < mid) {current : List Hash}
    (hlen : current.length = 2 * mid) (index : ℕ) :
    collectSiblingsFrom (fuel + 1) current index =
      (current[if index < mid then mid + index % mid else index % mid]?).bind fun sibling =>
        (collectSiblingsFrom fuel
          (if index < mid then current.take mid else current.drop mid) (index % mid)).map
            (sibling :: ·) := by
  have hhalf : current.length / 2 = mid := by omega
  rw [collectSiblingsFrom, if_neg (by omega), hhalf]
  simp only [Option.bind_eq_bind, Option.map_eq_bind]
  rfl

theorem collectSiblingsFrom_of_lt {fuel d : ℕ} {current : List Hash}
    (hlen : current.length = 2 ^ (d + 1)) {index : ℕ} (hindex : index < 2 ^ d) :
    collectSiblingsFrom (fuel + 1) current index =
      (current[2 ^ d + index]?).bind fun sibling =>
        (collectSiblingsFrom fuel (current.take (2 ^ d)) index).map (sibling :: ·) := by
  rw [collectSiblingsFrom_succ (Nat.two_pow_pos d) (hlen.trans (Nat.pow_succ' ..)),
    if_pos hindex, if_pos hindex, Nat.mod_eq_of_lt hindex]

theorem collectSiblingsFrom_two_pow_add {fuel d : ℕ} {current : List Hash}
    (hlen : current.length = 2 ^ (d + 1)) {low : ℕ} (hlow : low < 2 ^ d) :
    collectSiblingsFrom (fuel + 1) current (2 ^ d + low) =
      (current[low]?).bind fun sibling =>
        (collectSiblingsFrom fuel (current.drop (2 ^ d)) low).map (sibling :: ·) := by
  have hnot : ¬ 2 ^ d + low < 2 ^ d := by omega
  rw [collectSiblingsFrom_succ (Nat.two_pow_pos d) (hlen.trans (Nat.pow_succ' ..)),
    if_neg hnot, if_neg hnot, Nat.add_mod_left, Nat.mod_eq_of_lt hlow]

/-- The siblings of `index` in a list of `2 ^ d`: the elements whose index differs in one
bit, from the highest bit down. -/
def FlipsEachBit (hashes : List Hash) (d index : ℕ) (siblings : List Hash) : Prop :=
  siblings.length = d ∧ ∀ j < d, siblings[j]? = hashes[flipBit index (d - 1 - j)]?

theorem FlipsEachBit.cons {current half siblings : List Hash} {d index low : ℕ} {sibling : Hash}
    (hrest : FlipsEachBit half d low siblings)
    (hfirst : current[flipBit index d]? = some sibling)
    (hhalf : ∀ k < d, half[flipBit low k]? = current[flipBit index k]?) :
    FlipsEachBit current (d + 1) index (sibling :: siblings) := by
  refine ⟨congrArg Nat.succ hrest.1, ?_⟩
  intro j hj
  cases j with
  | zero => exact hfirst.symm
  | succ j =>
      have hjd : j < d := Nat.lt_of_succ_lt_succ hj
      have hk : d + 1 - 1 - (j + 1) = d - 1 - j := by omega
      rw [List.getElem?_cons_succ, hrest.2 j hjd, hk, hhalf _ (by omega)]

theorem exists_collectSiblingsFrom {d fuel : ℕ} (hfuel : d ≤ fuel) {current : List Hash}
    (hlen : current.length = 2 ^ d) {index : ℕ} (hindex : index < 2 ^ d) :
    ∃ siblings, collectSiblingsFrom fuel current index = some siblings ∧
      FlipsEachBit current d index siblings := by
  induction d generalizing fuel current index with
  | zero =>
      refine ⟨[], collectSiblingsFrom_of_length_le_one fuel hlen.le index, rfl, ?_⟩
      intro j hj
      exact absurd hj (Nat.not_lt_zero j)
  | succ d ih =>
      obtain ⟨fuel, rfl⟩ := Nat.exists_eq_add_of_le' (Nat.one_le_of_lt hfuel)
      have hdouble : 2 ^ (d + 1) = 2 ^ d + 2 ^ d := Nat.two_pow_succ d
      -- the highest bit says in which half the loop goes on
      by_cases hleft : index < 2 ^ d
      · have hsome := List.getElem?_eq_getElem (l := current) (i := 2 ^ d + index) (by omega)
        have hhalf : (current.take (2 ^ d)).length = 2 ^ d := by
          rw [List.length_take]
          omega
        obtain ⟨siblings, hrest, hflips⟩ := ih (Nat.le_of_succ_le_succ hfuel) hhalf hleft
        refine ⟨_ :: siblings, ?_, hflips.cons (by rw [Bits.flipBit_of_lt hleft, hsome]) ?_⟩
        · rw [collectSiblingsFrom_of_lt hlen hleft, hsome, hrest]
          rfl
        · intro k hk
          exact List.getElem?_take_of_lt (Bits.flipBit_lt hleft hk)
      · obtain ⟨low, rfl⟩ := Nat.exists_eq_add_of_le (Nat.le_of_not_lt hleft)
        have hlow : low < 2 ^ d := by omega
        have hsome := List.getElem?_eq_getElem (l := current) (i := low) (by omega)
        have hhalf : (current.drop (2 ^ d)).length = 2 ^ d := by
          rw [List.length_drop]
          omega
        obtain ⟨siblings, hrest, hflips⟩ := ih (Nat.le_of_succ_le_succ hfuel) hhalf hlow
        refine ⟨_ :: siblings, ?_, hflips.cons (by rw [Bits.flipBit_two_pow_add hlow, hsome]) ?_⟩
        · rw [collectSiblingsFrom_two_pow_add hlen hlow, hsome, hrest]
          rfl
        · intro k hk
          rw [Bits.flipBit_add_of_lt hlow hk, List.getElem?_drop]

/-- For a list of `2 ^ d` hashes and an index into it the loop ends, every access is in
range and every divisor is positive. -/
theorem collectSiblings_safe {hashes : List Hash} {d : ℕ} (hlen : hashes.length = 2 ^ d)
    {index : ℕ} (hindex : index < 2 ^ d) :
    ∃ siblings, collectSiblingsChecked hashes index = some siblings ∧
      collectSiblings hashes index = some siblings ∧ siblings.length = d ∧
      ∀ j < d, siblings[j]? = hashes[flipBit index (d - 1 - j)]? := by
  have hfuel : d ≤ hashes.length := hlen ▸ Nat.lt_two_pow_self.le
  obtain ⟨siblings, hloop, hcount, hflip⟩ := exists_collectSiblingsFrom hfuel hlen hindex
  have hcollect : collectSiblings hashes index = some siblings := by
    rw [collectSiblings_eq_from, hloop]
  exact ⟨siblings, (collectSiblingsChecked_eq hashes index).trans hcollect, hcollect, hcount, hflip⟩

/-- The siblings of the third of four hashes are the first and the fourth. -/
theorem collectSiblings_safe_four :
    2 < 2 ^ 2 ∧ ∀ a b c e : Hash, [a, b, c, e].length = 2 ^ 2 ∧
      ∃ siblings, collectSiblingsChecked [a, b, c, e] 2 = some siblings ∧
        siblings[0]? = some a ∧ siblings[1]? = some e := by
  have hindex : 2 < 2 ^ 2 := by decide
  refine ⟨hindex, ?_⟩
  intro a b c e
  have hlen : [a, b, c, e].length = 2 ^ 2 := rfl
  obtain ⟨siblings, hchecked, _, _, hflip⟩ := collectSiblings_safe hlen hindex
  exact ⟨hlen, siblings, hchecked, hflip 0 (by decide), hflip 1 (by decide)⟩

end Merkle

end Crates

end CryptoCoin
