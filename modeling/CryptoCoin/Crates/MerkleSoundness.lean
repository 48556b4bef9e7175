import CryptoCoin.Crates.MerkleProof
import CryptoCoin.Library.FreeHash

/-!
# Which proofs the verifier is right about

`MerkleProof::verify` takes the index, the leaf and the siblings from whoever made the
proof, and does not know the number of hashes. It is right about a proof whose path is
as long as the tree is deep and whose index is one of a hash. A shorter path offers an
inner node as a leaf, an index beyond the hashes offers padding, and nothing keeps a
longer path from starting below the leaves.

Up to the depth of the tree, a verified path means what it says (`verify_path`): the
bits of the index lead from the root to a node with the hash of the leaf, and the
siblings are those on the way.
-/

namespace CryptoCoin

namespace Crates

namespace Merkle

/-! ### Soundness of a proof -/

def rootPairs (sha3_256 : List UInt8 → Hash) (hashes : List Hash) : List (Hash × Hash) :=
  ((padToPowerOfTwo hashes).bind (buildTree sha3_256)).elim [] HashTree.pairs

/-- The pairs that are combined when the proof is checked. -/
def MerkleProof.pairs (sha3_256 : List UInt8 → Hash) (proof : MerkleProof) :
    List (Hash × Hash) :=
  HashTree.climbPairs (combineHashes sha3_256) proof.leaf proof.index proof.siblings

/-- If the proof verifies against the root, its leaf is the hash at its index, unless
two different pairs are combined to the same hash on the way. -/
def ProofSound (sha3_256 : List UInt8 → Hash) (hashes : List Hash) (proof : MerkleProof) :
    Prop :=
  ∀ root, computeRoot sha3_256 hashes = some root → proof.verify sha3_256 root = true →
    (∃ h : proof.index < hashes.length, hashes[proof.index] = proof.leaf) ∨
      HashTree.Collision (combineHashes sha3_256)
        (rootPairs sha3_256 hashes ++ proof.pairs sha3_256)

/-! ### The verifier climbs a path -/

theorem MerkleProof.verify_eq_true_iff {sha3_256 : List UInt8 → Hash} {proof : MerkleProof}
    {root : Hash} : proof.verify sha3_256 root = true ↔
      HashTree.climb (combineHashes sha3_256) proof.leaf proof.index proof.siblings = root := by
  rw [verify, decide_eq_true_eq, computeRoot, climb_eq]

theorem rootPairs_eq {sha3_256 : List UInt8 → Hash} {hashes padded : List Hash}
    {tree : MerkleTree} (hpad : padToPowerOfTwo hashes = some padded)
    (htree : HashTree.Halves (combineHashes sha3_256) padded tree) :
    rootPairs sha3_256 hashes = tree.pairs := by
  rw [rootPairs, hpad, Option.bind_some, buildTree, HashTree.build?_eq_some_iff.mpr htree]
  rfl

/-! ### Paths of the right length -/

theorem proofSound_of_length_eq {hashes : List Hash} (hne : hashes ≠ [])
    (hlen : hashes.length ≤ 2 ^ 63) {proof : MerkleProof}
    (hcount : proof.siblings.length = Nat.clog 2 hashes.length)
    (hindex : proof.index < hashes.length) (sha3_256 : List UInt8 → Hash) :
    ProofSound sha3_256 hashes proof := by
  intro root hroot hverify
  obtain ⟨padded, tree, hpad, htree, rfl⟩ := (computeRoot_eq_some_iff hne).mp hroot
  rw [MerkleProof.verify_eq_true_iff] at hverify
  rw [rootPairs_eq hpad htree]
  by_cases hcol : HashTree.Collision (combineHashes sha3_256)
      (tree.pairs ++ proof.pairs sha3_256)
  · exact Or.inr hcol
  · rw [padToPowerOfTwo_of_length_le hne hlen, Option.some.injEq] at hpad
    subst hpad
    obtain ⟨x, siblings, hleaf, hget⟩ :=
      htree.exists_descend_leaf (length_padded hashes) proof.index
    have hdeep : (HashTree.descend (Nat.clog 2 hashes.length) tree proof.index).isSome := by
      rw [hleaf, Option.isSome_some]
    obtain ⟨s, hs, hsleaf⟩ :=
      HashTree.exists_descend_of_climb htree.hashed hdeep hcount hverify hcol
    -- the path ends in the leaf at the index, which is no padding
    rw [hleaf, Option.some.injEq, Prod.mk.injEq] at hs
    rw [← hs.1] at hsleaf
    have hmod : proof.index % 2 ^ Nat.clog 2 hashes.length = proof.index :=
      Nat.mod_eq_of_lt (hindex.trans_le (Nat.le_pow_clog Nat.one_lt_two _))
    rw [hmod, List.getElem?_append_left hindex, List.getElem?_eq_some_iff] at hget
    obtain ⟨h, hx⟩ := hget
    exact Or.inl ⟨h, hx.trans hsleaf⟩

/-! ### Forged proofs -/

def ofCombine (combine : Hash → Hash → Hash) (input : List UInt8) : Hash :=
  if h : input.length = 64 then
    combine ⟨input.take 32, by rw [List.length_take, h]; rfl⟩
      ⟨input.drop 32, by rw [List.length_drop, h]⟩
  else Hash.zero

theorem combineHashes_ofCombine (combine : Hash → Hash → Hash) :
    combineHashes (ofCombine combine) = combine := by
  funext left right
  have hlen : (left.bytes ++ right.bytes).length = 64 := by
    rw [List.length_append, left.size, right.size]
  rw [combineHashes, ofCombine, dif_pos hlen]
  congr 1
  · exact Hash.ext_bytes (left.take_bytes_append _)
  · exact Hash.ext_bytes (left.drop_bytes_append _)

theorem not_proofSound_of_climb {hashes padded : List Hash} (hne : hashes ≠ [])
    (hpad : padToPowerOfTwo hashes = some padded) {combine : Hash → Hash → Hash}
    {tree : MerkleTree} (htree : HashTree.Halves combine padded tree) {proof : MerkleProof}
    (hclimb : HashTree.climb combine proof.leaf proof.index proof.siblings = tree.rootHash)
    (hcol : ¬ HashTree.Collision combine
      (tree.pairs ++ HashTree.climbPairs combine proof.leaf proof.index proof.siblings))
    (hleaf : hashes[proof.index]? ≠ some proof.leaf) :
    ¬ ProofSound (ofCombine combine) hashes proof := by
  intro hsound
  have htree' : HashTree.Halves (combineHashes (ofCombine combine)) padded tree := by
    rwa [combineHashes_ofCombine]
  have hroot : computeRoot (ofCombine combine) hashes = some tree.rootHash :=
    (computeRoot_eq_some_iff hne).mpr ⟨padded, tree, hpad, htree', rfl⟩
  have hverify : proof.verify (ofCombine combine) tree.rootHash = true := by
    rwa [MerkleProof.verify_eq_true_iff, combineHashes_ofCombine]
  rcases hsound _ hroot hverify with hget | hcol'
  · exact hleaf (List.getElem?_eq_some_iff.mpr hget)
  · rw [rootPairs_eq hpad htree', MerkleProof.pairs, combineHashes_ofCombine] at hcol'
    exact hcol hcol'

theorem exists_freeTree_of_length_eq {l : List Hash} {d : ℕ} (hlen : l.length = 2 ^ d)
    (hd : d ≤ 63) :
    ∃ combine tree x, HashTree.Halves combine l tree ∧
      ¬ HashTree.Collision combine tree.pairs ∧ x ∉ l ∧ (∀ a b, combine a b ∉ l) ∧
      ∀ a b, combine a b ≠ x := by
  have hpow : (2 : ℕ) ^ d ≤ 2 ^ 63 := Nat.pow_le_pow_right Nat.two_pos hd
  obtain ⟨fresh, hinj, hfresh⟩ := exists_fresh (hlen.trans_le hpow)
  -- the first fresh hash stays unused
  have hinj' : ∀ m < 2 ^ d, ∀ n < 2 ^ d, fresh (m + 1) = fresh (n + 1) → m = n := by
    intro m hm n hn h
    have hsucc := hinj (m + 1) (by omega) (n + 1) (by omega) h
    omega
  obtain ⟨combine, tree, htree, hcol, hout⟩ :=
    HashTree.exists_free hlen hinj' fun n => hfresh (n + 1)
  refine ⟨combine, tree, fresh 0, htree, hcol, hfresh 0, ?_, ?_⟩
  · intro a b
    obtain ⟨n, _, hn⟩ := hout a b
    rw [hn]
    exact hfresh (n + 1)
  · intro a b h
    obtain ⟨n, hlt, hn⟩ := hout a b
    have hzero := hinj (n + 1) (by omega) 0 (by omega) (hn.symm.trans h)
    omega

section Forged

variable {hashes : List Hash} (hne : hashes ≠ []) (hlen : hashes.length ≤ 2 ^ 63)
include hne hlen

/-- A path that is too short ends in an inner node, and one for an index beyond the
hashes ends in padding or, as the index wraps around, in another hash. -/
theorem exists_not_proofSound_of_le {index count : ℕ}
    (hle : count ≤ Nat.clog 2 hashes.length)
    (hbad : count < Nat.clog 2 hashes.length ∨ hashes.length ≤ index) :
    ∃ sha3_256 proof, proof.index = index ∧ proof.siblings.length = count ∧
      ¬ ProofSound sha3_256 hashes proof := by
  obtain ⟨combine, tree, _, htree, hcol, _, hout, _⟩ :=
    exists_freeTree_of_length_eq (length_padded hashes) (Nat.clog_le_of_le_pow hlen)
  have hlength := (length_padded hashes).trans (congrArg (2 ^ ·) (Nat.add_sub_cancel' hle).symm)
  obtain ⟨s, siblings, block, hs, hblock, hsize, _⟩ := htree.exists_descend hlength index
  obtain ⟨hclimb, hpairs⟩ := HashTree.climb_of_descend htree.hashed hs
  refine ⟨ofCombine combine, ⟨index, s.rootHash, siblings⟩, rfl, HashTree.length_of_descend hs,
    not_proofSound_of_climb hne (padToPowerOfTwo_of_length_le hne hlen) htree hclimb ?_ ?_⟩
  · rintro ⟨p, hp, q, hq, hpq⟩
    have hsub := List.append_subset.mpr ⟨List.Subset.refl _, hpairs⟩
    exact hcol ⟨p, hsub hp, q, hsub hq, hpq⟩
  · rcases hbad with hlt | hge
    · -- the hash of an inner node is no leaf
      have htwo : 2 ≤ block.length := by
        rw [hsize]
        exact Nat.le_self_pow (Nat.sub_ne_zero_of_lt hlt) 2
      obtain ⟨left, right, rfl, _, _⟩ := hblock.exists_node htwo
      intro hget
      exact hout _ _ (List.mem_append_left _ (List.mem_of_getElem? hget))
    · rw [List.getElem?_eq_none hge]
      exact (Option.some_ne_none _).symm

theorem exists_not_proofSound_of_lt {index count : ℕ}
    (hlt : Nat.clog 2 hashes.length < count) :
    ∃ sha3_256 proof, proof.index = index ∧ proof.siblings.length = count ∧
      ¬ ProofSound sha3_256 hashes proof := by
  obtain ⟨combine, tree, x, htree, hcol, hx, hout, hne'⟩ :=
    exists_freeTree_of_length_eq (length_padded hashes) (Nat.clog_le_of_le_pow hlen)
  obtain ⟨combine', siblings, htree', hcount, hclimb, hcol'⟩ :=
    htree.exists_long_path (length_padded hashes) hcol hx hout hne' index
      (count - Nat.clog 2 hashes.length - 1)
  refine ⟨ofCombine combine', ⟨index, x, siblings⟩, rfl, by rw [hcount]; omega,
    not_proofSound_of_climb hne (padToPowerOfTwo_of_length_le hne hlen) htree' hclimb hcol' ?_⟩
  intro hget
  exact hx (List.mem_append_left _ (List.mem_of_getElem? hget))

end Forged

/-! ### Exactly when proofs are sound -/

/-- For an index and a number of siblings, every proof is sound, whatever the hash
function is, if and only if there is a sibling for each level of the tree and the index
is one of a hash. For more than `2 ^ 63` hashes there is no root. -/
theorem proofSound_iff {hashes : List Hash} (hne : hashes ≠ []) (index count : ℕ) :
    (∀ sha3_256 proof, proof.index = index → proof.siblings.length = count →
      ProofSound sha3_256 hashes proof) ↔
    (hashes.length ≤ 2 ^ 63 →
      count = Nat.clog 2 hashes.length ∧ index < hashes.length) := by
  constructor
  · intro hsound hlen
    by_contra hcond
    have hforged : ∃ sha3_256 proof, proof.index = index ∧ proof.siblings.length = count ∧
        ¬ ProofSound sha3_256 hashes proof := by
      rcases Nat.lt_or_ge (Nat.clog 2 hashes.length) count with hlt | hle
      · exact exists_not_proofSound_of_lt hne hlen hlt
      · exact exists_not_proofSound_of_le hne hlen hle (by omega)
    obtain ⟨sha3_256, proof, hindex, hcount, hnot⟩ := hforged
    exact hnot (hsound sha3_256 proof hindex hcount)
  · rintro hcond sha3_256 proof rfl rfl root hroot
    obtain ⟨padded, tree, hpad, _⟩ := (computeRoot_eq_some_iff hne).mp hroot
    obtain ⟨p, hp, _⟩ := (padToPowerOfTwo_eq_some_iff hne).mp hpad
    have hlen := le_two_pow_of_nextPowerOfTwo hp
    obtain ⟨hcount, hindex⟩ := hcond hlen
    exact proofSound_of_length_eq hne hlen hcount hindex sha3_256 root hroot

/-- The second of two hashes, whose path has one sibling. -/
theorem proofSound_oneTwo :
    [byteHash 1, byteHash 2] ≠ [] ∧
      ∀ sha3_256 proof, proof.index = 1 → proof.siblings.length = 1 →
        ProofSound sha3_256 [byteHash 1, byteHash 2] proof :=
  ⟨List.cons_ne_nil _ _, (proofSound_iff (List.cons_ne_nil _ _) 1 1).mpr fun _ =>
    ⟨(Nat.clog_pow 2 1 Nat.one_lt_two).symm, Nat.one_lt_two⟩⟩

/-- Of four leaves, the hash of the first two offered as the first leaf, with the hash
of the other two as the only sibling. -/
theorem innerNode_not_proofSound :
    ¬ ProofSound twoByteHash [byteHash 1, byteHash 2, byteHash 3, byteHash 4]
      ⟨0, byteHash 8, [byteHash 18]⟩ := by
  intro hsound
  rcases hsound (byteHash 70) (by decide) (by decide) with hget | hcol
  · revert hget
    decide
  · revert hcol
    rw [HashTree.Collision]
    decide

/-! ### What a verified path means -/

/-- A proof with at most as many siblings as the tree has levels verifies if its leaf is
the hash of the node that the bits of its index lead to and its siblings are those on
the way. Nothing else verifies, unless two different pairs are combined to the same
hash. -/
theorem verify_path {hashes padded : List Hash} {d : ℕ} (hne : hashes ≠ [])
    (hpad : padToPowerOfTwo hashes = some padded) (hlen : padded.length = 2 ^ d)
    (sha3_256 : List UInt8 → Hash) (proof : MerkleProof) (hcount : proof.siblings.length ≤ d) :
    ∃ tree root node siblings, buildTree sha3_256 padded = some tree ∧
      computeRoot sha3_256 hashes = some root ∧
      HashTree.descend proof.siblings.length tree proof.index = some (node, siblings) ∧
      (proof.leaf = node.rootHash ∧ proof.siblings = siblings →
        proof.verify sha3_256 root = true) ∧
      (proof.verify sha3_256 root = true →
        (proof.leaf = node.rootHash ∧ proof.siblings = siblings) ∨
          HashTree.Collision (combineHashes sha3_256)
            (rootPairs sha3_256 hashes ++ proof.pairs sha3_256)) := by
  have hpadded : padded ≠ [] := by
    rintro rfl
    exact absurd hlen.symm (Nat.two_pow_pos d).ne'
  obtain ⟨tree, hbuild, htree⟩ := HashTree.exists_build? (combineHashes sha3_256) hpadded
  have hlevels : padded.length = 2 ^ (proof.siblings.length + (d - proof.siblings.length)) := by
    rw [hlen, Nat.add_sub_cancel' hcount]
  obtain ⟨node, siblings, _, hfound, _, _, _⟩ := htree.exists_descend hlevels proof.index
  have hroot : computeRoot sha3_256 hashes = some tree.rootHash :=
    (computeRoot_eq_some_iff hne).mpr ⟨padded, tree, hpad, htree, rfl⟩
  refine ⟨tree, tree.rootHash, node, siblings, hbuild, hroot, hfound, ?_, ?_⟩
  · rintro ⟨hleaf, hsiblings⟩
    rw [MerkleProof.verify_eq_true_iff, hleaf, hsiblings]
    exact (HashTree.climb_of_descend htree.hashed hfound).1
  · intro hverify
    rw [MerkleProof.verify_eq_true_iff] at hverify
    rw [rootPairs_eq hpad htree]
    by_cases hcol : HashTree.Collision (combineHashes sha3_256)
        (tree.pairs ++ proof.pairs sha3_256)
    · exact Or.inr hcol
    · have hdeep : (HashTree.descend proof.siblings.length tree proof.index).isSome := by
        rw [hfound, Option.isSome_some]
      obtain ⟨node', hfound', hleaf⟩ :=
        HashTree.exists_descend_of_climb htree.hashed hdeep rfl hverify hcol
      rw [hfound, Option.some.injEq, Prod.mk.injEq] at hfound'
      rw [← hfound'.1] at hleaf
      exact Or.inl ⟨hleaf.symm, hfound'.2.symm⟩

/-- Of four leaves, the inner node over the first two: index 6 leads there like index 0,
as its lowest bit is the only one that a path of one sibling reads. -/
theorem verify_path_innerNode :
    padToPowerOfTwo [byteHash 1, byteHash 2, byteHash 3, byteHash 4] =
        some [byteHash 1, byteHash 2, byteHash 3, byteHash 4] ∧
      ∃ tree root node siblings,
        buildTree twoByteHash [byteHash 1, byteHash 2, byteHash 3, byteHash 4] = some tree ∧
        computeRoot twoByteHash [byteHash 1, byteHash 2, byteHash 3, byteHash 4] = some root ∧
        HashTree.descend 1 tree 6 = some (node, siblings) ∧
        (byteHash 8 = node.rootHash ∧ [byteHash 18] = siblings →
          MerkleProof.verify twoByteHash ⟨6, byteHash 8, [byteHash 18]⟩ root = true) := by
  have hpad : padToPowerOfTwo [byteHash 1, byteHash 2, byteHash 3, byteHash 4] =
      some [byteHash 1, byteHash 2, byteHash 3, byteHash 4] := by decide
  obtain ⟨tree, root, node, siblings, hbuild, hroot, hfound, haccept, _⟩ :=
    verify_path (d := 2) (List.cons_ne_nil _ _) hpad rfl twoByteHash
      ⟨6, byteHash 8, [byteHash 18]⟩ (by decide)
  exact ⟨hpad, tree, root, node, siblings, hbuild, hroot, hfound, haccept⟩

end Merkle

end Crates

end CryptoCoin
