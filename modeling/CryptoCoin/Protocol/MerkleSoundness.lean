import CryptoCoin.Protocol.MerkleProof

/-!
# What a verified proof shows

`verifyProof` knows neither the depth of the tree nor the position of the leaf, and sorts
every pair. For a perfect tree and a proof with one hash for each level this is enough: the
proof starts at a leaf, up to a collision. A proof of another length may start at an inner
node, or below a leaf, and with a number of leaves that is no power of two the levels
differ from leaf to leaf.

A hash function that adds numbers shows this without a collision. Over leaves that are all
one, the hash of a tree is the number of its leaves.
-/

namespace CryptoCoin

namespace Protocol

namespace Merkle

/-! ### Sound proofs -/

/-- The arguments of `combineHashes` that occur while a proof is verified. -/
def verifyInputs (hash : ByteString → Hash) (leaf : Hash) (proof : List Hash) :
    List (Hash × Hash) :=
  HashTree.ascendPairs (combineHashes hash) sortPair leaf proof

/-- A leaf whose proof verifies is one of the hashes, or a collision occurred. -/
def ProofSoundFor (hash : ByteString → Hash) (hashes : List Hash) (leaf : Hash)
    (proof : List Hash) : Prop :=
  verifyProof hash leaf proof (computeRoot hash hashes) = true →
    leaf ∈ hashes ∨ HashTree.Collision (combineHashes hash)
      (rootInputs hash hashes ++ verifyInputs hash leaf proof)

def AllSound (n m : ℕ) : Prop :=
  ∀ hash : ByteString → Hash, (∀ bs, (hash bs).bytes.length = 32) →
    ∀ hashes : List Hash, hashes.length = n → (∀ h ∈ hashes, h.bytes.length = 32) →
      ∀ leaf : Hash, leaf.bytes.length = 32 → ∀ proof : List Hash, proof.length = m →
        ProofSoundFor hash hashes leaf proof

theorem allSound_of_eq_pow {n m : ℕ} (hn : 2 ≤ n) (hpow : n = 2 ^ m) : AllSound n m := by
  rintro hash _ hashes rfl _ leaf _ proof hlen hverify
  by_cases hcol : HashTree.Collision (combineHashes hash)
      (rootInputs hash hashes ++ verifyInputs hash leaf proof)
  · exact Or.inr hcol
  · left
    rw [verifyProof_eq_true_iff, computeRoot_of_two_le hash hn] at hverify
    rw [rootInputs_of_two_le hash hn] at hcol
    exact (halves_paddedTree hash hn).mem_of_ascend sortPair_eq_or hpow hlen hverify hcol

def numeral (n : ℕ) : Hash := ⟨Words.beBytes 32 n⟩

/-- The hash that adds the numbers of both halves. -/
def addHash (bs : ByteString) : Hash :=
  numeral (Words.ofBeBytes (bs.take 32) + Words.ofBeBytes (bs.drop 32))

theorem length_numeral (n : ℕ) : (numeral n).bytes.length = 32 := Words.length_beBytes 32 n

theorem ofBeBytes_numeral {n : ℕ} (hn : n ≤ 2 ^ 63) : Words.ofBeBytes (numeral n).bytes = n := by
  have hbound : (2 : ℕ) ^ 63 < 256 ^ 32 := by decide
  rw [numeral, Words.ofBeBytes_beBytes, Nat.mod_eq_of_lt (by omega)]

theorem numeral_inj {m n : ℕ} (hm : m ≤ 2 ^ 63) (hn : n ≤ 2 ^ 63) (h : numeral m = numeral n) :
    m = n := by
  rw [← ofBeBytes_numeral hm, ← ofBeBytes_numeral hn, h]

theorem combineHashes_addHash {m n : ℕ} (h : m + n ≤ 2 ^ 63) :
    combineHashes addHash (numeral m) (numeral n) = numeral (m + n) := by
  rw [combineHashes, addHash, List.take_left' (length_numeral m),
    List.drop_left' (length_numeral m), ofBeBytes_numeral (by omega), ofBeBytes_numeral (by omega)]

theorem sortPair_numeral {m n : ℕ} (hmn : m ≤ n) (hn : n ≤ 2 ^ 63) :
    sortPair (numeral m) (numeral n) = (numeral m, numeral n) ∧
      sortPair (numeral n) (numeral m) = (numeral m, numeral n) := by
  have hbound : (2 : ℕ) ^ 63 < 256 ^ 32 := by decide
  rcases Nat.eq_or_lt_of_le hmn with rfl | hlt
  · exact ⟨sortPair_self _, sortPair_self _⟩
  · have hbytes : (numeral m).bytes < (numeral n).bytes :=
      Words.beBytes_lt_beBytes hlt (by omega)
    rw [sortPair_eq, sortPair_eq, if_pos hbytes, if_neg (List.lt_asymm hbytes)]
    exact ⟨rfl, rfl⟩

theorem halves_ones {n : ℕ} (hn : n ≤ 2 ^ 63) {tree : MerkleTree}
    (htree : HashTree.Halves (combineHashes addHash) (List.replicate n (numeral 1)) tree) :
    tree.rootHash = numeral n ∧ ∀ p ∈ tree.pairs,
      ∃ k ≤ 2 ^ 63, p = (numeral (k / 2), numeral (k - k / 2)) := by
  have hadd : ∀ s k l, s + k + l ≤ 2 ^ 63 →
      combineHashes addHash (numeral k) (numeral l) = numeral (k + l) :=
    fun s k l h => combineHashes_addHash (by omega)
  have hones : List.replicate n (numeral 1) = (List.range' 0 n).map fun _ => numeral 1 := by
    rw [List.map_const', List.length_range']
  rw [hones] at htree
  have hspans := @HashTree.Halves.of_spans Hash (combineHashes addHash) (fun _ => numeral)
    (2 ^ 63) hadd 0 n (by omega) tree htree
  refine ⟨hspans.1, ?_⟩
  intro p hp
  obtain ⟨s, k, _, hk, hpk⟩ := hspans.2 p hp
  exact ⟨k, by omega, hpk⟩

theorem not_collision_addHash {ps : List (Hash × Hash)}
    (hps : ∀ p ∈ ps, ∃ k ≤ 2 ^ 63, p = (numeral (k / 2), numeral (k - k / 2))) :
    ¬ HashTree.Collision (combineHashes addHash) ps := by
  have hsum : ∀ k ≤ 2 ^ 63,
      combineHashes addHash (numeral (k / 2)) (numeral (k - k / 2)) = numeral k := by
    intro k hk
    rw [combineHashes_addHash (by omega), Nat.add_sub_cancel' (Nat.div_le_self k 2)]
  rintro ⟨p, hp, q, hq, hne, heq⟩
  obtain ⟨k, hk, rfl⟩ := hps p hp
  obtain ⟨l, hl, rfl⟩ := hps q hq
  rw [hsum k hk, hsum l hl] at heq
  exact hne (by rw [numeral_inj hk hl heq])

theorem not_allSound_of_ne_pow {n m : ℕ} (hn : 2 ≤ n) (hbound : n < 2 ^ 63) (hpow : n ≠ 2 ^ m) :
    ¬ AllSound n m := by
  intro hsound
  obtain ⟨c, hc, hone, proof, hlen, hpath, hproof⟩ := HashTree.exists_ascend_of_ne_pow
    (fun _ _ => combineHashes_addHash) (fun _ _ => sortPair_numeral) hbound.le hpow
  have htwo : 2 ≤ (List.replicate n (numeral 1)).length := by rwa [List.length_replicate]
  obtain ⟨hroot, htree⟩ := halves_ones hbound.le (halves_paddedTree addHash htwo)
  have hsized : ∀ h ∈ List.replicate n (numeral 1), h.bytes.length = 32 := by
    intro h hh
    rw [List.eq_of_mem_replicate hh, length_numeral]
  rcases hsound addHash (fun _ => length_numeral _) _ List.length_replicate hsized (numeral c)
      (length_numeral c) proof hlen (by
        rw [verifyProof_eq_true_iff, computeRoot_of_two_le addHash htwo, hroot, hpath])
    with hmem | hcol
  · exact hone (numeral_inj hc (by decide) (List.eq_of_mem_replicate hmem))
  · rw [rootInputs_of_two_le addHash htwo] at hcol
    apply not_collision_addHash _ hcol
    intro p hp
    rcases List.mem_append.mp hp with hp | hp
    · exact htree p hp
    · exact hproof p hp

/-- From two hashes on, proofs with `m` members are sound, whatever the hash function is, if
and only if there are `2 ^ m` hashes. -/
theorem verifyProof_sound_iff {n m : ℕ} (hn : 2 ≤ n) :
    (n = 2 ^ m → AllSound n m) ∧ (n < 2 ^ 63 → AllSound n m → n = 2 ^ m) := by
  refine ⟨allSound_of_eq_pow hn, ?_⟩
  intro hbound hsound
  by_contra hpow
  exact not_allSound_of_ne_pow hn hbound hpow hsound

theorem verifyProof_sound_two : 2 ≤ 2 ∧ AllSound 2 1 :=
  ⟨le_rfl, (verifyProof_sound_iff le_rfl).1 rfl⟩

/-- A third hash that the repository's own hash takes for a leaf of a tree with two. -/
theorem foreign_leaf_verified :
    verifyProof Crypto.hash (byteHash 3) [byteHash 2, byteHash 1]
        (computeRoot Crypto.hash [byteHash 1, byteHash 2]) = true ∧
      byteHash 3 ∉ [byteHash 1, byteHash 2] ∧
      ¬ HashTree.Collision (combineHashes Crypto.hash)
        (rootInputs Crypto.hash [byteHash 1, byteHash 2] ++
          verifyInputs Crypto.hash (byteHash 3) [byteHash 2, byteHash 1]) := by
  have hfirst : sortPair (byteHash 3) (byteHash 2) = (byteHash 2, byteHash 3) := by decide
  have hsecond : sortPair (byteHash 2) (byteHash 1) = (byteHash 1, byteHash 2) := by decide
  have hcombine : ∀ a b, combineHashes Crypto.hash (byteHash a) (byteHash b) = byteHash a :=
    fun a b => combineHashes_hash (length_byteHash a) (length_byteHash b)
  obtain ⟨hroot, hinputs⟩ := root_pair Crypto.hash (byteHash 1) (byteHash 2)
  refine ⟨?_, by decide, ?_⟩
  · rw [verifyProof_eq_true_iff, hroot, HashTree.ascend, hfirst, hcombine, HashTree.ascend, hsecond,
      HashTree.ascend]
  · have hverify : verifyInputs Crypto.hash (byteHash 3) [byteHash 2, byteHash 1] =
        [(byteHash 2, byteHash 3), (byteHash 1, byteHash 2)] := by
      rw [verifyInputs, HashTree.ascendPairs, hfirst, hcombine, HashTree.ascendPairs, hsecond,
        HashTree.ascendPairs]
    -- the first component of a pair is its hash, and it tells the pairs apart
    have hall : ∀ p ∈ [(byteHash 1, byteHash 2)] ++
        [(byteHash 2, byteHash 3), (byteHash 1, byteHash 2)],
        combineHashes Crypto.hash p.1 p.2 = p.1 ∧ ∀ q ∈ [(byteHash 1, byteHash 2)] ++
          [(byteHash 2, byteHash 3), (byteHash 1, byteHash 2)], p.1 = q.1 → p = q := by
      intro p hp
      constructor
      · simp only [List.cons_append, List.nil_append, List.mem_cons, List.not_mem_nil,
          or_false] at hp
        rcases hp with rfl | rfl | rfl <;> exact hcombine _ _
      · revert p
        decide
    rw [hinputs, hverify]
    rintro ⟨p, hp, q, hq, hne, heq⟩
    rw [(hall p hp).1, (hall q hq).1] at heq
    exact hne ((hall p hp).2 q hq heq)

end Merkle

end Protocol

end CryptoCoin
