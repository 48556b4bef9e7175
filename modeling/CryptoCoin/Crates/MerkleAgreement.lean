import CryptoCoin.Crates.Merkle
import CryptoCoin.Protocol.Merkle

/-!
# The crate against the formal protocol

Both sides halve a list and combine the roots of the halves. They differ before
that: the crate pads to a power of two and the protocol, whose
`nextPowerOfTwo` is zero from two on, does not; and the protocol hashes a single
leaf with itself. `toProtocol` carries hashes across, and a tree of the crate
over the bare list is the tree of the protocol (`computeRoot_map_toProtocol`), so
the comparison is one of the crate's trees over two lists.
-/

namespace CryptoCoin

namespace Crates

namespace Merkle

def Hash.toProtocol (h : Hash) : Protocol.Hash := ⟨h.bytes⟩

theorem Hash.toProtocol_injective : Function.Injective Hash.toProtocol := by
  intro a b h
  exact Hash.ext_bytes (congrArg Protocol.Hash.bytes h)

/-- The two implementations return the same root under one hash function. -/
def RootsAgree (sha3_256 : List UInt8 → Hash) (hashes : List Hash) : Prop :=
  (computeRoot sha3_256 hashes).map Hash.toProtocol =
    some (Protocol.Merkle.computeRoot (fun bs => (sha3_256 bs).toProtocol)
      (hashes.map Hash.toProtocol))

/-! ### One tree for both -/

/-- From two hashes on, the protocol's root is that of the crate's tree over the
list without padding. -/
theorem computeRoot_map_toProtocol (sha3_256 : List UInt8 → Hash) {hashes : List Hash}
    (hlen : 2 ≤ hashes.length) {tree : MerkleTree}
    (htree : HashTree.Halves (combineHashes sha3_256) hashes tree) :
    Protocol.Merkle.computeRoot (fun bs => (sha3_256 bs).toProtocol)
      (hashes.map Hash.toProtocol) = tree.rootHash.toProtocol := by
  have hlen' : 2 ≤ (hashes.map Hash.toProtocol).length := by rwa [List.length_map]
  have hmap : HashTree.Halves
      (Protocol.Merkle.combineHashes fun bs => (sha3_256 bs).toProtocol)
      (hashes.map Hash.toProtocol) (tree.map Hash.toProtocol) := htree.map fun _ _ => rfl
  rw [Protocol.Merkle.computeRoot_of_two_le _ hlen',
    (Protocol.Merkle.halves_paddedTree _ hlen').unique hmap, HashTree.rootHash_map]

theorem rootsAgree_iff_of_two_le {sha3_256 : List UInt8 → Hash} {hashes : List Hash}
    (htwo : 2 ≤ hashes.length) (hlen : hashes.length < 2 ^ 62) {padded bare : MerkleTree}
    (hpadded : HashTree.Halves (combineHashes sha3_256)
      (hashes ++ List.replicate (2 ^ Nat.clog 2 hashes.length - hashes.length) Hash.zero) padded)
    (hbare : HashTree.Halves (combineHashes sha3_256) hashes bare) :
    RootsAgree sha3_256 hashes ↔ padded.rootHash = bare.rootHash := by
  have hne : hashes ≠ [] := List.ne_nil_of_length_pos (by omega)
  have hroot : computeRoot sha3_256 hashes = some padded.rootHash :=
    (computeRoot_eq_some_iff hne).mpr
      ⟨_, padded, padToPowerOfTwo_of_length_le hne (by omega), hpadded, rfl⟩
  rw [RootsAgree, hroot, computeRoot_map_toProtocol sha3_256 htwo hbare, Option.map_some,
    Option.some.injEq, Hash.toProtocol_injective.eq_iff]

/-! ### Lengths that are not powers of two -/

/-- The hash function behind `HashTree.depthParity`. -/
def parityHash (odd even : Hash) (input : List UInt8) : Hash :=
  if input.take 32 = odd.bytes then even else odd

theorem combineHashes_parityHash (odd even : Hash) :
    combineHashes (parityHash odd even) = HashTree.depthParity odd even := by
  funext x y
  rw [combineHashes, parityHash, HashTree.depthParity, Hash.take_bytes_append]
  simp only [Hash.bytes_inj]

theorem clog_eq_log_add_one {n : ℕ} (hn : n ≠ 0) (h : ∀ k, n ≠ 2 ^ k) :
    Nat.clog 2 n = Nat.log 2 n + 1 := by
  apply le_antisymm
  · exact Nat.clog_le_of_le_pow (Nat.lt_pow_succ_log_self Nat.one_lt_two n).le
  · apply (Nat.lt_clog_iff_pow_lt Nat.one_lt_two).mpr
    exact lt_of_le_of_ne (Nat.pow_log_le_self 2 hn) fun heq => h _ heq.symm

/-- Padding to the next power of two makes the tree one level deeper, which the
parity of the depth shows. -/
theorem exists_not_rootsAgree {hashes : List Hash} (htwo : 2 ≤ hashes.length)
    (hlen : hashes.length < 2 ^ 62) (hpow : ∀ k, hashes.length ≠ 2 ^ k) :
    ∃ sha3_256, ¬ RootsAgree sha3_256 hashes := by
  obtain ⟨odd, hodd⟩ := exists_hash_notMem (l := Hash.zero :: hashes)
    (by rw [List.length_cons]; omega)
  obtain ⟨even, heven⟩ := exists_hash_notMem (l := [odd]) (by simp)
  rw [List.mem_cons, not_or] at hodd
  rw [List.mem_singleton] at heven
  have hclog := clog_eq_log_add_one (by omega) hpow
  have hle : hashes.length ≤ 2 ^ Nat.clog 2 hashes.length := Nat.le_pow_clog Nat.one_lt_two _
  let pad := hashes ++ List.replicate (2 ^ Nat.clog 2 hashes.length - hashes.length) Hash.zero
  have hpadLength : pad.length = 2 ^ Nat.clog 2 hashes.length := length_padded hashes
  have hpadOdd : odd ∉ pad := by
    intro hmem
    rcases List.mem_append.mp hmem with hmem | hmem
    · exact hodd.2 hmem
    · exact hodd.1 (List.eq_of_mem_replicate hmem)
  have hbareNe : hashes ≠ [] := List.ne_nil_of_length_pos (by omega)
  have hpadNe : pad ≠ [] := List.append_ne_nil_of_left_ne_nil hbareNe _
  obtain ⟨padded, _, hpadded⟩ := HashTree.exists_build? (HashTree.depthParity odd even) hpadNe
  obtain ⟨bare, _, hbare⟩ := HashTree.exists_build? (HashTree.depthParity odd even) hbareNe
  have hpaddedRoot := hpadded.rootHash_depthParity (Ne.symm heven) (by omega) hpadOdd
  have hbareRoot := hbare.rootHash_depthParity (Ne.symm heven) htwo hodd.2
  rw [hpadLength, Nat.log_pow Nat.one_lt_two, hclog] at hpaddedRoot
  rw [← combineHashes_parityHash] at hpadded hbare
  refine ⟨parityHash odd even, ?_⟩
  rw [rootsAgree_iff_of_two_le htwo hlen hpadded hbare, hpaddedRoot, hbareRoot]
  by_cases hparity : Nat.log 2 hashes.length % 2 = 1
  · rw [if_pos hparity, if_neg (by omega)]
    exact heven
  · rw [if_neg hparity, if_pos (by omega)]
    exact Ne.symm heven

/-! ### Exactly when the roots agree -/

theorem rootsAgree_of_length_eq_pow {hashes : List Hash} (hlen : hashes.length < 2 ^ 62) {k : ℕ}
    (hk : 1 ≤ k) (hpow : hashes.length = 2 ^ k) (sha3_256 : List UInt8 → Hash) :
    RootsAgree sha3_256 hashes := by
  have htwo : 2 ≤ hashes.length := by
    rw [hpow]
    exact Nat.pow_le_pow_right Nat.two_pos hk
  obtain ⟨tree, _, htree⟩ := HashTree.exists_build? (combineHashes sha3_256)
    (List.ne_nil_of_length_pos (by omega) : hashes ≠ [])
  have hpadded : HashTree.Halves (combineHashes sha3_256)
      (hashes ++ List.replicate (2 ^ Nat.clog 2 hashes.length - hashes.length) Hash.zero)
      tree := by
    rw [hpow, Nat.clog_pow 2 k Nat.one_lt_two, Nat.sub_self, List.replicate_zero,
      List.append_nil]
    exact htree
  exact (rootsAgree_iff_of_two_le htwo hlen hpadded htree).mpr rfl

/-- The protocol hashes a single leaf, the crate does not. -/
theorem exists_not_rootsAgree_singleton (h : Hash) : ∃ sha3_256, ¬ RootsAgree sha3_256 [h] := by
  obtain ⟨other, hother⟩ := exists_hash_notMem (l := [h]) (by simp)
  refine ⟨fun _ => other, ?_⟩
  intro hagree
  have hroots : some h.toProtocol = some other.toProtocol := hagree
  rw [Option.some.injEq, Hash.toProtocol_injective.eq_iff] at hroots
  exact hother (List.mem_singleton.mpr hroots.symm)

/-- Under every hash function the two roots of a list agree, if and only if the
list is empty or its length is a power of two above one. -/
theorem rootsAgree_iff {hashes : List Hash} (hlen : hashes.length < 2 ^ 62) :
    (∀ sha3_256, RootsAgree sha3_256 hashes) ↔
      hashes.length = 0 ∨ ∃ k, 1 ≤ k ∧ hashes.length = 2 ^ k := by
  constructor
  · intro h
    by_contra hnot
    rw [not_or, not_exists] at hnot
    obtain ⟨hzero, hpow⟩ := hnot
    rcases Nat.lt_or_ge hashes.length 2 with hone | htwo
    · obtain ⟨a, rfl⟩ := List.length_eq_one_iff.mp (by omega : hashes.length = 1)
      obtain ⟨sha3_256, hdiff⟩ := exists_not_rootsAgree_singleton a
      exact hdiff (h sha3_256)
    · have hnopow : ∀ k, hashes.length ≠ 2 ^ k := by
        intro k hk
        rcases Nat.eq_zero_or_pos k with rfl | hpos
        · rw [hk, pow_zero] at htwo
          omega
        · exact hpow k ⟨hpos, hk⟩
      obtain ⟨sha3_256, hdiff⟩ := exists_not_rootsAgree htwo hlen hnopow
      exact hdiff (h sha3_256)
  · rintro (hzero | ⟨k, hk, hpow⟩) sha3_256
    · rw [List.length_eq_zero_iff.mp hzero]
      rfl
    · exact rootsAgree_of_length_eq_pow hlen hk hpow sha3_256

theorem rootsAgree_oneTwo :
    [byteHash 1, byteHash 2].length < 2 ^ 62 ∧
      ∀ sha3_256, RootsAgree sha3_256 [byteHash 1, byteHash 2] :=
  ⟨by decide, (rootsAgree_iff (by decide)).mpr (Or.inr ⟨1, le_rfl, rfl⟩)⟩

/-- One leaf of bytes `1` under the hash function that is constantly zero: the
crate returns the leaf and the protocol the zero hash. -/
theorem single_leaf_not_rootsAgree :
    ¬ RootsAgree (fun _ => Hash.zero) [⟨List.replicate 32 1, List.length_replicate⟩] := by
  unfold RootsAgree
  decide

end Merkle

end Crates

end CryptoCoin
