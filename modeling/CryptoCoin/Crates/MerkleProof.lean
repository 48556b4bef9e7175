import CryptoCoin.Crates.Merkle
import CryptoCoin.Library.FreeHash

/-!
# Which lists have verifiable proofs

`collect_siblings` puts leaves of the padded list into a proof, from the root's
level down, and `MerkleProof::compute_root` combines them from the leaf up, as if
they were the roots of the neighbouring subtrees. For one or two hashes the two
agree. From three hashes on the last sibling is a leaf that is combined at the
top, where the tree combines two digests, and a hash function can tell these
apart.
-/

namespace CryptoCoin

namespace Crates

namespace Merkle

/-- The property of a proof for an index: it is produced, the root is computed,
and the proof verifies against it. -/
def ProofComplete (sha3_256 : List UInt8 → Hash) (hashes : List Hash) (index : ℕ) : Prop :=
  ∃ proof root, generateProof hashes index = some (some proof) ∧
    computeRoot sha3_256 hashes = some root ∧ proof.verify sha3_256 root = true

/-! ### What a proof contains -/

theorem MerkleProof.climb_eq (sha3_256 : List UInt8 → Hash) (current : Hash) (idx : ℕ)
    (siblings : List Hash) :
    climb sha3_256 current idx siblings =
      HashTree.climb (combineHashes sha3_256) current idx siblings := by
  induction siblings generalizing current idx with
  | nil => rfl
  | cons sibling siblings ih =>
      rw [climb, HashTree.climb, ih]
      by_cases hidx : idx % 2 = 0
      · rw [HashTree.joinAt, if_pos hidx, if_pos hidx]
      · rw [HashTree.joinAt, if_neg hidx, if_neg hidx]

/-- The last sibling is a child of the recomputed root. -/
theorem MerkleProof.climb_append_singleton (sha3_256 : List UInt8 → Hash) (current s : Hash)
    (idx : ℕ) (siblings : List Hash) :
    ∃ x, climb sha3_256 current idx (siblings ++ [s]) = combineHashes sha3_256 x s ∨
      climb sha3_256 current idx (siblings ++ [s]) = combineHashes sha3_256 s x := by
  refine ⟨HashTree.climb (combineHashes sha3_256) current idx siblings, ?_⟩
  rw [climb_eq, HashTree.climb_append_singleton, HashTree.topPair]
  by_cases hidx : idx / 2 ^ siblings.length % 2 = 0
  · exact Or.inl (by rw [HashTree.joinAt, if_pos hidx])
  · exact Or.inr (by rw [HashTree.joinAt, if_neg hidx])

theorem collectSiblings_ne_nil {hashes siblings : List Hash} {index : ℕ}
    (hlen : 2 ≤ hashes.length) (h : collectSiblings hashes index = some siblings) :
    siblings ≠ [] := by
  obtain ⟨fuel, hfuel⟩ : ∃ fuel, hashes.length = fuel + 1 := ⟨hashes.length - 1, by omega⟩
  rw [collectSiblings, if_neg (by omega), hfuel, collectSiblingsFrom, if_neg (by omega)] at h
  simp only [Option.bind_eq_bind, Option.bind_eq_some_iff, Option.some.injEq] at h
  obtain ⟨sibling, _, rest, _, rfl⟩ := h
  exact List.cons_ne_nil _ _

theorem exists_of_generateProof {hashes : List Hash} {index : ℕ} {proof : MerkleProof}
    (h : generateProof hashes index = some (some proof)) :
    hashes ≠ [] ∧ ∃ padded, padToPowerOfTwo hashes = some padded ∧
      collectSiblings padded index = some proof.siblings := by
  by_cases hout : hashes.isEmpty ∨ hashes.length ≤ index
  · rw [generateProof, if_pos hout] at h
    simp at h
  · rw [generateProof, if_neg hout] at h
    simp only [Option.bind_eq_bind, Option.bind_eq_some_iff, Option.some.injEq] at h
    obtain ⟨padded, hpadded, leaf, _, siblings, hsiblings, rfl⟩ := h
    refine ⟨?_, padded, hpadded, hsiblings⟩
    rintro rfl
    exact hout (Or.inl rfl)

theorem four_le_length_of_padToPowerOfTwo {hashes padded : List Hash} (hlen : 3 ≤ hashes.length)
    (h : padToPowerOfTwo hashes = some padded) : 4 ≤ padded.length := by
  have hne : hashes ≠ [] := List.ne_nil_of_length_pos (by omega)
  obtain ⟨p, hp, rfl⟩ := (padToPowerOfTwo_eq_some_iff hne).mp h
  have hle := le_of_nextPowerOfTwo hp
  rw [List.length_append, List.length_replicate]
  rcases Nat.lt_or_ge 3 hashes.length with hfour | hthree
  · omega
  · have heq : hashes.length = 3 := by omega
    have hpow : nextPowerOfTwo 3 = some 4 := by decide
    rw [heq, hpow, Option.some.injEq] at hp
    omega

/-! ### A hash function that tells a leaf from a digest -/

/-- The function that marks the inputs of which one half is the hash `s`. -/
def leafMark (s seen unseen : Hash) (input : List UInt8) : Hash :=
  if input.take 32 = s.bytes ∨ input.drop 32 = s.bytes then seen else unseen

theorem combineHashes_leafMark (s seen unseen x y : Hash) :
    combineHashes (leafMark s seen unseen) x y = if x = s ∨ y = s then seen else unseen := by
  rw [combineHashes, leafMark, Hash.take_bytes_append, Hash.drop_bytes_append]
  simp only [Hash.bytes_inj]

theorem rootHash_leafMark {s seen unseen : Hash} (hseen : seen ≠ s) (hunseen : unseen ≠ s)
    {l : List Hash} {t : MerkleTree} (hlen : 4 ≤ l.length)
    (h : HashTree.Halves (combineHashes (leafMark s seen unseen)) l t) :
    t.rootHash = unseen := by
  have hmark : combineHashes (leafMark s seen unseen) = HashTree.mark s seen unseen := by
    funext x y
    exact combineHashes_leafMark s seen unseen x y
  rw [hmark] at h
  exact h.rootHash_mark hseen hunseen hlen

/-! ### Exactly when proofs are complete -/

theorem padToPowerOfTwo_pair (a b : Hash) : padToPowerOfTwo [a, b] = some [a, b] := by
  have hpow : nextPowerOfTwo 2 = some 2 := by decide
  exact (padToPowerOfTwo_eq_some_iff (List.cons_ne_nil _ _)).mpr ⟨2, hpow, rfl⟩

theorem computeRoot_pair (sha3_256 : List UInt8 → Hash) (a b : Hash) :
    computeRoot sha3_256 [a, b] = some (combineHashes sha3_256 a b) := by
  have hleft : HashTree.Halves (combineHashes sha3_256) ([a, b].take ([a, b].length / 2))
      (.leaf a) := by simpa using HashTree.Halves.leaf a
  have hright : HashTree.Halves (combineHashes sha3_256) ([a, b].drop ([a, b].length / 2))
      (.leaf b) := by simpa using HashTree.Halves.leaf b
  apply (computeRoot_eq_some_iff (List.cons_ne_nil _ _)).mpr
  exact ⟨[a, b], _, padToPowerOfTwo_pair a b, .node le_rfl hleft hright, rfl⟩

theorem generateProof_pair (a b : Hash) :
    generateProof [a, b] 0 = some (some ⟨0, a, [b]⟩) ∧
      generateProof [a, b] 1 = some (some ⟨1, b, [a]⟩) := by
  constructor
  · simp [generateProof, padToPowerOfTwo_pair, collectSiblings, collectSiblingsFrom]
  · simp [generateProof, padToPowerOfTwo_pair, collectSiblings, collectSiblingsFrom]

theorem proofComplete_of_length_le {hashes : List Hash} {index : ℕ}
    (hindex : index < hashes.length) (hlen : hashes.length ≤ 2)
    (sha3_256 : List UInt8 → Hash) : ProofComplete sha3_256 hashes index := by
  match hashes, hindex, hlen with
  | [a], hindex, _ =>
      have hzero : index = 0 := by simpa using hindex
      subst hzero
      exact ⟨⟨0, a, []⟩, a, rfl, rfl, by simp [MerkleProof.verify, MerkleProof.computeRoot,
        MerkleProof.climb]⟩
  | [a, b], hindex, _ =>
      have hcases : index = 0 ∨ index = 1 := by
        simp only [List.length_cons, List.length_nil] at hindex
        omega
      rcases hcases with rfl | rfl
      · exact ⟨_, _, (generateProof_pair a b).1, computeRoot_pair sha3_256 a b, by
          simp [MerkleProof.verify, MerkleProof.computeRoot, MerkleProof.climb]⟩
      · exact ⟨_, _, (generateProof_pair a b).2, computeRoot_pair sha3_256 a b, by
          simp [MerkleProof.verify, MerkleProof.computeRoot, MerkleProof.climb]⟩

theorem exists_not_proofComplete {hashes : List Hash} (index : ℕ) (hlen : 3 ≤ hashes.length) :
    ∃ sha3_256, ¬ ProofComplete sha3_256 hashes index := by
  by_contra hall
  push Not at hall
  obtain ⟨proof, _, hproof, _, _⟩ := hall fun _ => Hash.zero
  obtain ⟨hne, padded, hpadded, hsiblings⟩ := exists_of_generateProof hproof
  have hfour := four_le_length_of_padToPowerOfTwo hlen hpadded
  -- the last sibling decides which inputs the hash function marks
  obtain ⟨rest, s, hlast⟩ := List.eq_nil_or_concat' proof.siblings |>.resolve_left
    (collectSiblings_ne_nil (by omega) hsiblings)
  obtain ⟨seen, hseen⟩ := exists_hash_notMem (l := [s]) (by simp)
  obtain ⟨unseen, hunseen⟩ := exists_hash_notMem (l := [s, seen]) (by simp)
  rw [List.mem_singleton] at hseen
  simp only [List.mem_cons, List.not_mem_nil, or_false, not_or] at hunseen
  obtain ⟨proof', root, hproof', hroot, hverify⟩ := hall (leafMark s seen unseen)
  have hsame : proof' = proof := by
    rw [hproof, Option.some.injEq, Option.some.injEq] at hproof'
    exact hproof'.symm
  obtain ⟨padded', tree, hpadded', htree, rfl⟩ := (computeRoot_eq_some_iff hne).mp hroot
  have hpad : padded' = padded := by
    rw [hpadded, Option.some.injEq] at hpadded'
    exact hpadded'.symm
  subst hsame hpad
  have hmarked : proof'.computeRoot (leafMark s seen unseen) = seen := by
    rw [MerkleProof.computeRoot, hlast]
    obtain ⟨x, hx | hx⟩ := MerkleProof.climb_append_singleton (leafMark s seen unseen)
      proof'.leaf s proof'.index rest
    · rw [hx, combineHashes_leafMark, if_pos (Or.inr rfl)]
    · rw [hx, combineHashes_leafMark, if_pos (Or.inl rfl)]
  have hunmarked := rootHash_leafMark hseen hunseen.1 hfour htree
  rw [MerkleProof.verify, decide_eq_true_eq, hmarked, hunmarked] at hverify
  exact hunseen.2 hverify.symm

/-- For an index in range, proofs are complete whatever the hash function is, if
and only if there are at most two hashes. -/
theorem proofComplete_iff {hashes : List Hash} {index : ℕ} (hindex : index < hashes.length) :
    (∀ sha3_256, ProofComplete sha3_256 hashes index) ↔ hashes.length ≤ 2 := by
  constructor
  · intro h
    by_contra hlen
    obtain ⟨sha3_256, hnot⟩ := exists_not_proofComplete index (Nat.lt_of_not_le hlen)
    exact hnot (h sha3_256)
  · intro hlen sha3_256
    exact proofComplete_of_length_le hindex hlen sha3_256

theorem proofComplete_oneTwo :
    1 < [byteHash 1, byteHash 2].length ∧
      ∀ sha3_256, ProofComplete sha3_256 [byteHash 1, byteHash 2] 1 :=
  ⟨Nat.one_lt_two, (proofComplete_iff Nat.one_lt_two).mpr le_rfl⟩

/-! ### Four leaves -/

/-- The proof for the first of four leaves does not verify. -/
theorem fourLeaves_not_proofComplete :
    ¬ ProofComplete twoByteHash [byteHash 1, byteHash 2, byteHash 3, byteHash 4] 0 := by
  rintro ⟨proof, root, hproof, hroot, hverify⟩
  have hp : proof = ⟨0, byteHash 1, [byteHash 3, byteHash 2]⟩ := by
    have hgen : generateProof [byteHash 1, byteHash 2, byteHash 3, byteHash 4] 0 =
        some (some ⟨0, byteHash 1, [byteHash 3, byteHash 2]⟩) := rfl
    rw [hgen, Option.some.injEq, Option.some.injEq] at hproof
    exact hproof.symm
  subst hp
  have hcomputed : computeRoot twoByteHash [byteHash 1, byteHash 2, byteHash 3, byteHash 4] =
      some (byteHash 70) := by decide
  rw [hcomputed, Option.some.injEq] at hroot
  subst hroot
  revert hverify
  decide

end Merkle

end Crates

end CryptoCoin
