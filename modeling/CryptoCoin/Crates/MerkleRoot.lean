import CryptoCoin.Crates.MerkleAgreement
import CryptoCoin.Crates.MerkleSoundness

/-!
# What the root of the crate fixes

Lists of one length are padded alike, so their roots are those of two trees of one shape,
and equal roots come from equal lists unless a collision occurs.

The leaves of the tree are the hashes themselves. The crate has a `hash_leaf`, documented as
a protection against second preimages, and its tests expect the leaves to be hashed with it,
but `build_tree` does not call it. For a list of `2 ^ d` hashes the root is that of the
perfect tree over the bare hashes (`computeRoot_of_perfect`), and no list has the root of the
perfect tree over the hashed ones under every hash function.
-/

namespace CryptoCoin

namespace Crates

namespace Merkle

/-! ### Lists of one length -/

/-- Lists of one length with one root are equal, unless two different pairs are combined to
the same hash while the roots are computed. -/
theorem computeRoot_binding {sha3_256 : List UInt8 → Hash} {l₁ l₂ : List Hash} {root : Hash}
    (hlen : l₁.length = l₂.length) (h₁ : computeRoot sha3_256 l₁ = some root)
    (h₂ : computeRoot sha3_256 l₂ = some root) :
    l₁ = l₂ ∨ HashTree.Collision (combineHashes sha3_256)
      (rootPairs sha3_256 l₁ ++ rootPairs sha3_256 l₂) := by
  by_cases hnil : l₁ = []
  · left
    rw [hnil, List.length_nil] at hlen
    rw [hnil, List.length_eq_zero_iff.mp hlen.symm]
  · have hnil' : l₂ ≠ [] := fun h => hnil (List.length_eq_zero_iff.mp (by rw [hlen, h]; rfl))
    obtain ⟨padded₁, tree₁, hpad₁, htree₁, hroot₁⟩ := (computeRoot_eq_some_iff hnil).mp h₁
    obtain ⟨padded₂, tree₂, hpad₂, htree₂, hroot₂⟩ := (computeRoot_eq_some_iff hnil').mp h₂
    rw [rootPairs_eq hpad₁ htree₁, rootPairs_eq hpad₂ htree₂]
    by_cases hcol : HashTree.Collision (combineHashes sha3_256) (tree₁.pairs ++ tree₂.pairs)
    · exact Or.inr hcol
    · left
      -- the padding depends on the length alone
      obtain ⟨p, hp, rfl⟩ := (padToPowerOfTwo_eq_some_iff hnil).mp hpad₁
      obtain ⟨q, hq, rfl⟩ := (padToPowerOfTwo_eq_some_iff hnil').mp hpad₂
      have hpq : p = q := by
        rw [← hlen, hp, Option.some.injEq] at hq
        exact hq
      have hlength : (l₁ ++ List.replicate (p - l₁.length) Hash.zero).length =
          (l₂ ++ List.replicate (q - l₂.length) Hash.zero).length := by
        rw [hpq, List.length_append, List.length_append, List.length_replicate,
          List.length_replicate, hlen]
      have hpadded := htree₁.eq_of_rootHash_eq htree₂ hlength (hroot₁.trans hroot₂.symm) hcol
      exact (List.append_inj hpadded hlen).1

theorem computeRoot_binding_pair :
    [byteHash 1, byteHash 2].length = [byteHash 4, byteHash 0].length ∧
      [byteHash 1, byteHash 2] ≠ [byteHash 4, byteHash 0] ∧
      computeRoot twoByteHash [byteHash 1, byteHash 2] = some (byteHash 8) ∧
      computeRoot twoByteHash [byteHash 4, byteHash 0] = some (byteHash 8) ∧
      HashTree.Collision (combineHashes twoByteHash)
        (rootPairs twoByteHash [byteHash 1, byteHash 2] ++
          rootPairs twoByteHash [byteHash 4, byteHash 0]) := by
  have hlen : [byteHash 1, byteHash 2].length = [byteHash 4, byteHash 0].length := rfl
  have hne : [byteHash 1, byteHash 2] ≠ [byteHash 4, byteHash 0] := by decide
  have hfirst : computeRoot twoByteHash [byteHash 1, byteHash 2] = some (byteHash 8) := by decide
  have hsecond : computeRoot twoByteHash [byteHash 4, byteHash 0] = some (byteHash 8) := by decide
  exact ⟨hlen, hne, hfirst, hsecond,
    (computeRoot_binding hlen hfirst hsecond).resolve_left hne⟩

/-! ### Perfect trees -/

theorem padToPowerOfTwo_of_length_eq_pow {hashes : List Hash} {d : ℕ}
    (hlen : hashes.length = 2 ^ d) (hd : d ≤ 63) : padToPowerOfTwo hashes = some hashes := by
  have hne : hashes ≠ [] := List.ne_nil_of_length_pos (by rw [hlen]; exact Nat.two_pow_pos d)
  have hle : hashes.length ≤ 2 ^ 63 := by
    rw [hlen]
    exact Nat.pow_le_pow_right Nat.two_pos hd
  rw [padToPowerOfTwo_of_length_le hne hle, hlen, Nat.clog_pow 2 d Nat.one_lt_two, Nat.sub_self,
    List.replicate_zero, List.append_nil]

theorem computeRoot_of_perfect {sha3_256 : List UInt8 → Hash} {tree : MerkleTree} {d : ℕ}
    (hperfect : tree.Perfect d) (hhashed : tree.Hashed (combineHashes sha3_256)) (hd : d ≤ 63) :
    computeRoot sha3_256 tree.leaves = some tree.rootHash := by
  have htree := hperfect.halves hhashed
  exact (computeRoot_eq_some_iff htree.ne_nil).mpr
    ⟨tree.leaves, tree, padToPowerOfTwo_of_length_eq_pow hperfect.length_leaves hd, htree, rfl⟩

/-- The root of `2 ^ d` hashes is that of the perfect tree whose leaves are `hash_leaf` of
the hashes in order. -/
def LeavesHashed (sha3_256 : List UInt8 → Hash) (d : ℕ) (hashes : List Hash) : Prop :=
  ∀ tree : MerkleTree, tree.Perfect d → tree.Hashed (combineHashes sha3_256) →
    tree.leaves = hashes.map (hashLeaf sha3_256) →
    computeRoot sha3_256 hashes = some tree.rootHash

theorem exists_perfect (sha3_256 : List UInt8 → Hash) {hashes : List Hash} {d : ℕ}
    (hlen : hashes.length = 2 ^ d) :
    ∃ tree : MerkleTree, tree.Perfect d ∧ tree.Hashed (combineHashes sha3_256) ∧
      tree.leaves = hashes := by
  have hne : hashes ≠ [] := List.ne_nil_of_length_pos (by rw [hlen]; exact Nat.two_pow_pos d)
  obtain ⟨tree, _, htree⟩ := HashTree.exists_build? (combineHashes sha3_256) hne
  exact ⟨tree, htree.perfect hlen, htree.hashed, htree.leaves_eq⟩

/-- Hashing the leaves makes the tree one level deeper, and the parity of the depth shows
it. -/
theorem rootHash_ne_of_parityHash {odd even : Hash} (hne : odd ≠ even) {hashes : List Hash}
    {d : ℕ} (hlen : hashes.length = 2 ^ d) (hodd : odd ∉ hashes) {bare hashed : MerkleTree}
    (hbare : HashTree.Halves (combineHashes (parityHash odd even)) hashes bare)
    (hhashed : HashTree.Halves (combineHashes (parityHash odd even))
      (hashes.map (hashLeaf (parityHash odd even))) hashed) :
    bare.rootHash ≠ hashed.rootHash := by
  have hleaves : ∀ x ∈ hashes.map (hashLeaf (parityHash odd even)), x = odd := by
    intro x hx
    obtain ⟨h, hh, rfl⟩ := List.mem_map.mp hx
    rw [hashLeaf, combineHashes_parityHash, HashTree.depthParity, if_neg]
    rintro rfl
    exact hodd hh
  rw [combineHashes_parityHash] at hbare hhashed
  have hroot := hhashed.rootHash_depthParity_of_odd hne hleaves
  rw [List.length_map, hlen, Nat.log_pow Nat.one_lt_two] at hroot
  rcases Nat.eq_zero_or_pos d with rfl | hpos
  · obtain ⟨h, rfl, rfl⟩ := hbare.eq_leaf hlen
    rw [hroot]
    rintro rfl
    exact hodd (List.mem_singleton_self _)
  · have htwo : 2 ≤ hashes.length := by
      rw [hlen]
      exact Nat.pow_le_pow_right Nat.two_pos hpos
    have hbareRoot := hbare.rootHash_depthParity hne htwo hodd
    rw [hlen, Nat.log_pow Nat.one_lt_two] at hbareRoot
    rw [hroot, hbareRoot]
    by_cases hparity : d % 2 = 1
    · rw [if_pos hparity, if_pos hparity]
      exact hne
    · rw [if_neg hparity, if_neg hparity]
      exact Ne.symm hne

/-- No list of `2 ^ d` hashes has the root of its hashed leaves under every hash function. For
more than `2 ^ 63` hashes there is no root. -/
theorem not_leavesHashed {d : ℕ} {hashes : List Hash} (hlen : hashes.length = 2 ^ d) :
    ¬ ∀ sha3_256, LeavesHashed sha3_256 d hashes := by
  intro hall
  have hmap : ∀ sha3_256, (hashes.map (hashLeaf sha3_256)).length = 2 ^ d := by
    intro sha3_256
    rw [List.length_map, hlen]
  have hne : hashes ≠ [] := List.ne_nil_of_length_pos (by rw [hlen]; exact Nat.two_pow_pos d)
  rcases Nat.lt_or_ge 63 d with hbig | hd
  · obtain ⟨tree, hperfect, hhashed, hleaves⟩ := exists_perfect _ (hmap fun _ => Hash.zero)
    obtain ⟨padded, _, hpad, _⟩ :=
      (computeRoot_eq_some_iff hne).mp (hall _ tree hperfect hhashed hleaves)
    obtain ⟨p, hp, _⟩ := (padToPowerOfTwo_eq_some_iff hne).mp hpad
    have hle := le_two_pow_of_nextPowerOfTwo hp
    rw [hlen] at hle
    exact absurd hle (Nat.not_le.mpr (Nat.pow_lt_pow_right Nat.one_lt_two hbig))
  · obtain ⟨fresh, hinj, hfresh⟩ := exists_fresh
      (hlen.trans_le (Nat.pow_le_pow_right Nat.two_pos hd))
    have hdiff : fresh 0 ≠ fresh 1 := fun h =>
      absurd (hinj 0 (by decide) 1 (by decide) h) Nat.zero_ne_one
    obtain ⟨bare, hbare, hbareHashed, rfl⟩ :=
      exists_perfect (parityHash (fresh 0) (fresh 1)) hlen
    obtain ⟨tree, hperfect, hhashed, hleaves⟩ :=
      exists_perfect _ (hmap (parityHash (fresh 0) (fresh 1)))
    have hroot := hall _ tree hperfect hhashed hleaves
    rw [computeRoot_of_perfect hbare hbareHashed hd, Option.some.injEq] at hroot
    have htree := hperfect.halves hhashed
    rw [hleaves] at htree
    exact rootHash_ne_of_parityHash hdiff hlen (hfresh 0) (hbare.halves hbareHashed) htree hroot

theorem oneTwo_not_leavesHashed :
    [byteHash 1, byteHash 2].length = 2 ^ 1 ∧
      ¬ ∀ sha3_256, LeavesHashed sha3_256 1 [byteHash 1, byteHash 2] :=
  ⟨rfl, not_leavesHashed rfl⟩

/-- The root of a single leaf of bytes 1 is the leaf, whatever its hash is. -/
theorem single_leaf_not_hashed :
    computeRoot (fun _ => Hash.zero) [byteHash 1] = some (byteHash 1) ∧
      hashLeaf (fun _ => Hash.zero) (byteHash 1) = Hash.zero ∧
      ¬ LeavesHashed (fun _ => Hash.zero) 0 [byteHash 1] := by
  refine ⟨by decide, rfl, ?_⟩
  intro h
  exact absurd (h (.leaf Hash.zero) trivial trivial rfl) (by decide)

end Merkle

end Crates

end CryptoCoin
