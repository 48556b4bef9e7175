import CryptoCoin.Library.Bits
import CryptoCoin.Library.HashTree
import CryptoCoin.Protocol.Types

/-!
# The Merkle tree of the Haskell layer

The root computation of `CryptoCoin.Protocol.Merkle`, over an arbitrary `hash`
in the place of `Crypto.hash`. `Int` is a 64-bit two's complement integer there:
`shiftL` keeps the low 64 bits, so `shiftL 1 63` is the least integer. The
leading-zero count therefore stops at once (`countLeadingZeros_eq_zero`), the
next power of two of every `n ≥ 2` is `shiftL 1 64 = 0`, and no list of two or
more hashes is padded (`padToPowerOfTwo_of_two_le`): the tree halves the list as
it is.
-/

namespace CryptoCoin

namespace Protocol

namespace Merkle

abbrev MerkleTree := HashTree Hash

/-! ### Padding -/

def emptyTreeHash : Hash := ⟨List.replicate 32 0⟩

/-- The left shift of a 64-bit `Int`. -/
def shiftL (x : ℤ) (k : ℕ) : ℤ := Int.bmod (x * 2 ^ k) (2 ^ 64)

/-- The loop `go` of the source. -/
def countLeadingZerosFrom : ℕ → ℤ → ℕ
  | 0, _ => 0
  | bits + 1, val =>
      if val ≥ shiftL 1 bits then 0 else 1 + countLeadingZerosFrom bits (shiftL val 1)

def countLeadingZeros (x : ℤ) : ℕ := countLeadingZerosFrom 64 x

def nextPowerOfTwo (n : ℤ) : ℤ :=
  if n ≤ 1 then 1 else shiftL 1 (64 - countLeadingZeros (n - 1))

def padToPowerOfTwo : List Hash → List Hash
  | [] => [emptyTreeHash]
  | hashes =>
      let len : ℤ := hashes.length
      let nextPow2 := nextPowerOfTwo len
      if len = nextPow2 then hashes
      else hashes ++ List.replicate (nextPow2 - len).toNat emptyTreeHash

/-- The threshold of the first comparison is the least `Int`, so no leading zero
is ever counted. -/
theorem countLeadingZeros_eq_zero {x : ℤ} (hx : -2 ^ 63 ≤ x) : countLeadingZeros x = 0 := by
  have hmin : shiftL 1 63 = -2 ^ 63 := by decide
  rw [countLeadingZeros, countLeadingZerosFrom, hmin, if_pos hx]

theorem nextPowerOfTwo_of_two_le {n : ℤ} (hn : 2 ≤ n) : nextPowerOfTwo n = 0 := by
  have hzero : shiftL 1 64 = 0 := by decide
  rw [nextPowerOfTwo, if_neg (by omega), countLeadingZeros_eq_zero (by omega)]
  exact hzero

theorem padToPowerOfTwo_of_two_le {hashes : List Hash} (h : 2 ≤ hashes.length) :
    padToPowerOfTwo hashes = hashes := by
  match hashes, h with
  | a :: b :: l, h =>
      have hpow : nextPowerOfTwo ((a :: b :: l).length : ℤ) = 0 :=
        nextPowerOfTwo_of_two_le (by exact_mod_cast h)
      have hneg : ((0 : ℤ) - ((a :: b :: l).length : ℤ)).toNat = 0 := by omega
      simp only [padToPowerOfTwo, hpow, hneg, List.replicate_zero, List.append_nil, ite_self]

theorem padToPowerOfTwo_of_ne_nil {hashes : List Hash} (hne : hashes ≠ []) :
    padToPowerOfTwo hashes = hashes := by
  match hashes, hne with
  | [a], _ =>
      have hone : nextPowerOfTwo 1 = 1 := if_pos le_rfl
      simp only [padToPowerOfTwo, List.length_singleton, Nat.cast_one, hone, if_true]
  | a :: b :: l, _ => exact padToPowerOfTwo_of_two_le (by simp)

/-- Empty hashes are added up to the next power of two. -/
def PadsToPowerOfTwo (hashes : List Hash) : Prop :=
  (∃ k, padToPowerOfTwo hashes = hashes ++ List.replicate k emptyTreeHash) ∧
    Bits.IsNextPowerOfTwo hashes.length (padToPowerOfTwo hashes).length

/-- That is right where nothing is to be added. -/
theorem padsToPowerOfTwo_iff {hashes : List Hash} (hne : hashes ≠ []) :
    PadsToPowerOfTwo hashes ↔ ∃ k, hashes.length = 2 ^ k := by
  have hself : ∃ k, hashes = hashes ++ List.replicate k emptyTreeHash :=
    ⟨0, (List.append_nil hashes).symm⟩
  rw [PadsToPowerOfTwo, padToPowerOfTwo_of_ne_nil hne, and_iff_right hself,
    Bits.isNextPowerOfTwo_self_iff]

theorem padsToPowerOfTwo_pair :
    [emptyTreeHash, emptyTreeHash] ≠ [] ∧ PadsToPowerOfTwo [emptyTreeHash, emptyTreeHash] :=
  ⟨List.cons_ne_nil _ _, (padsToPowerOfTwo_iff (List.cons_ne_nil _ _)).mpr ⟨1, rfl⟩⟩

/-- Three hashes stay three. -/
theorem three_not_padded :
    (padToPowerOfTwo [emptyTreeHash, emptyTreeHash, emptyTreeHash]).length = 3 ∧
      ¬ PadsToPowerOfTwo [emptyTreeHash, emptyTreeHash, emptyTreeHash] := by
  have hlen : (padToPowerOfTwo [emptyTreeHash, emptyTreeHash, emptyTreeHash]).length = 3 := by
    decide
  refine ⟨hlen, fun hpads => ?_⟩
  obtain ⟨⟨⟨j, hj⟩, _⟩, _⟩ := hpads.2
  rw [hlen] at hj
  -- the powers of two are one and even numbers
  cases j with
  | zero => cases hj
  | succ j => omega

theorem padToPowerOfTwo_ne_nil (hashes : List Hash) : padToPowerOfTwo hashes ≠ [] := by
  cases hashes with
  | nil => exact List.cons_ne_nil _ _
  | cons a l =>
      have hne : a :: l ≠ [] := List.cons_ne_nil a l
      rw [padToPowerOfTwo_of_ne_nil hne]
      exact hne

/-! ### Roots -/

section Root

variable (hash : ByteString → Hash)

def combineHashes (left right : Hash) : Hash := hash (left.bytes ++ right.bytes)

def hashLeaf (h : Hash) : Hash := combineHashes hash h h

def buildTree (hashes : List Hash) : Option MerkleTree :=
  HashTree.build? (combineHashes hash) hashes

theorem isSome_buildTree_padToPowerOfTwo (hashes : List Hash) :
    (buildTree hash (padToPowerOfTwo hashes)).isSome := by
  obtain ⟨t, ht, _⟩ := HashTree.exists_build? (combineHashes hash)
    (padToPowerOfTwo_ne_nil hashes)
  rw [buildTree, ht]
  rfl

/-- The tree over the padded list, which always exists. -/
def paddedTree (hashes : List Hash) : MerkleTree :=
  (buildTree hash (padToPowerOfTwo hashes)).get (isSome_buildTree_padToPowerOfTwo hash hashes)

def computeRoot : List Hash → Hash
  | [] => emptyTreeHash
  | [h] => hashLeaf hash h
  | hashes => (paddedTree hash hashes).rootHash

def combineRoots (r₁ r₂ : MerkleRoot) : MerkleRoot :=
  ⟨combineHashes hash r₁.unMerkleRoot r₂.unMerkleRoot⟩

/-- The arguments of `combineHashes` that occur while `computeRoot` runs. -/
def rootInputs : List Hash → List (Hash × Hash)
  | [] => []
  | [h] => [(h, h)]
  | hashes => (paddedTree hash hashes).pairs

/-- From two hashes on, the root is the one of the tree that halves the list
itself. -/
theorem halves_paddedTree {hashes : List Hash} (h : 2 ≤ hashes.length) :
    HashTree.Halves (combineHashes hash) hashes (paddedTree hash hashes) := by
  have hsome : buildTree hash (padToPowerOfTwo hashes) = some (paddedTree hash hashes) :=
    (Option.some_get _).symm
  rw [padToPowerOfTwo_of_two_le h] at hsome
  exact HashTree.build?_eq_some_iff.mp hsome

theorem computeRoot_of_two_le {hashes : List Hash} (h : 2 ≤ hashes.length) :
    computeRoot hash hashes = (paddedTree hash hashes).rootHash := by
  match hashes, h with
  | a :: b :: l, _ => rfl

theorem rootInputs_of_two_le {hashes : List Hash} (h : 2 ≤ hashes.length) :
    rootInputs hash hashes = (paddedTree hash hashes).pairs := by
  match hashes, h with
  | a :: b :: l, _ => rfl

theorem eq_of_computeRoot_eq {l₁ l₂ : List Hash} (hlen : l₁.length = l₂.length)
    (hroot : computeRoot hash l₁ = computeRoot hash l₂)
    (hcol : ¬ HashTree.Collision (combineHashes hash)
      (rootInputs hash l₁ ++ rootInputs hash l₂)) : l₁ = l₂ := by
  by_cases htwo : 2 ≤ l₁.length
  · have htwo' : 2 ≤ l₂.length := hlen ▸ htwo
    rw [computeRoot_of_two_le hash htwo, computeRoot_of_two_le hash htwo'] at hroot
    rw [rootInputs_of_two_le hash htwo, rootInputs_of_two_le hash htwo'] at hcol
    exact (halves_paddedTree hash htwo).eq_of_rootHash_eq (halves_paddedTree hash htwo')
      hlen hroot hcol
  · have hshort : l₁.length = 0 ∨ l₁.length = 1 := by omega
    rcases hshort with hzero | hone
    · have hnil : l₂ = [] := List.length_eq_zero_iff.mp (hlen.symm.trans hzero)
      rw [List.length_eq_zero_iff.mp hzero, hnil]
    · obtain ⟨a, rfl⟩ := List.length_eq_one_iff.mp hone
      obtain ⟨b, rfl⟩ := List.length_eq_one_iff.mp hlen.symm
      obtain ⟨hab, _⟩ := HashTree.eq_of_not_collision hcol
        (by simp [rootInputs]) (by simp [rootInputs]) hroot
      rw [hab]

theorem length_computeRoot (hdigest : ∀ bs, (hash bs).bytes.length = 32)
    (hashes : List Hash) : (computeRoot hash hashes).bytes.length = 32 := by
  by_cases htwo : 2 ≤ hashes.length
  · obtain ⟨left, right, ht, _, _⟩ := (halves_paddedTree hash htwo).exists_node htwo
    rw [computeRoot_of_two_le hash htwo, ht]
    exact hdigest _
  · match hashes, htwo with
    | [], _ => rfl
    | [a], _ => exact hdigest _
    | _ :: _ :: _, htwo => exact absurd (by simp) htwo

theorem computeRoot_of_fixed {hash : ByteString → Hash} (hconst : ∀ bs, hash bs = emptyTreeHash)
    {hashes : List Hash} (h : ∀ x ∈ hashes, x = emptyTreeHash) :
    computeRoot hash hashes = emptyTreeHash ∧
      ∀ p ∈ rootInputs hash hashes, p = (emptyTreeHash, emptyTreeHash) := by
  by_cases htwo : 2 ≤ hashes.length
  · rw [computeRoot_of_two_le hash htwo, rootInputs_of_two_le hash htwo]
    exact (halves_paddedTree hash htwo).pairs_of_fixed (hconst _) h
  · match hashes, htwo with
    | [], _ => exact ⟨rfl, fun p hp => by simp [rootInputs] at hp⟩
    | [a], _ =>
        refine ⟨hconst _, fun p hp => ?_⟩
        rw [List.mem_singleton.mp hp, h a List.mem_cons_self]
    | _ :: _ :: _, htwo => exact absurd (by simp) htwo

theorem length_of_mem_rootInputs (hdigest : ∀ bs, (hash bs).bytes.length = 32)
    {hashes : List Hash} (hsized : ∀ h ∈ hashes, h.bytes.length = 32) {p : Hash × Hash}
    (hp : p ∈ rootInputs hash hashes) : p.1.bytes.length = 32 ∧ p.2.bytes.length = 32 := by
  by_cases htwo : 2 ≤ hashes.length
  · rw [rootInputs_of_two_le hash htwo] at hp
    exact (halves_paddedTree hash htwo).forall_mem_pairs (P := fun h => h.bytes.length = 32)
      hsized (fun _ _ => hdigest _) hp
  · rcases hashes with _ | ⟨a, _ | ⟨b, l⟩⟩
    · cases hp
    · rw [List.mem_singleton.mp hp]
      exact ⟨hsized a List.mem_cons_self, hsized a List.mem_cons_self⟩
    · exact absurd (by simp) htwo

theorem exists_mem_rootInputs {hashes : List Hash} (hne : hashes ≠ []) :
    ∃ p ∈ rootInputs hash hashes, computeRoot hash hashes = combineHashes hash p.1 p.2 := by
  match hashes, hne with
  | [h], _ => exact ⟨(h, h), List.mem_singleton_self _, rfl⟩
  | a :: b :: l, _ =>
      have htwo : 2 ≤ (a :: b :: l).length := by simp
      obtain ⟨left, right, ht, _, _⟩ := (halves_paddedTree hash htwo).exists_node htwo
      refine ⟨(left.rootHash, right.rootHash), ?_, ?_⟩
      · rw [rootInputs_of_two_le hash htwo, ht]
        exact List.mem_cons_self
      · rw [computeRoot_of_two_le hash htwo, ht]
        rfl

theorem root_pair (a b : Hash) :
    computeRoot hash [a, b] = combineHashes hash a b ∧ rootInputs hash [a, b] = [(a, b)] := by
  have htwo : 2 ≤ [a, b].length := le_rfl
  rw [computeRoot_of_two_le hash htwo, rootInputs_of_two_le hash htwo,
    (halves_paddedTree hash htwo).eq_pair]
  exact ⟨rfl, rfl⟩

end Root

/-! ### Hash functions for given pairs -/

/-- A hash function that combines 32-byte hashes in a given way. -/
def ofCombine (combine : Hash → Hash → Hash) (input : ByteString) : Hash :=
  combine ⟨input.take 32⟩ ⟨input.drop 32⟩

theorem combineHashes_ofCombine (combine : Hash → Hash → Hash) {a : Hash}
    (ha : a.bytes.length = 32) (b : Hash) :
    combineHashes (ofCombine combine) a b = combine a b := by
  rw [combineHashes, ofCombine, List.take_left' ha, List.drop_left' ha]

theorem halves_ofCombine {combine : Hash → Hash → Hash}
    (hdigest : ∀ a b, (combine a b).bytes.length = 32) {hashes : List Hash}
    (htwo : 2 ≤ hashes.length) (hsized : ∀ h ∈ hashes, h.bytes.length = 32) :
    HashTree.Halves combine hashes (paddedTree (ofCombine combine) hashes) := by
  have htree := halves_paddedTree (ofCombine combine) htwo
  apply htree.congr
  intro p hp
  obtain ⟨hfst, _⟩ := htree.forall_mem_pairs (P := fun h => h.bytes.length = 32) hsized
    (fun _ _ => hdigest _ _) hp
  exact combineHashes_ofCombine combine hfst p.2

theorem exists_sized_notMem {l : List Hash} (hl : l.length < 2 ^ 63) :
    ∃ h : Hash, h.bytes.length = 32 ∧ h ∉ l := by
  have hbound : (2 : ℕ) ^ 63 < 256 ^ 32 := by decide
  obtain ⟨n, hn⟩ := Words.exists_beBytes_ne Hash.bytes (hl.trans hbound)
  refine ⟨⟨Words.beBytes 32 n⟩, Words.length_beBytes 32 n, ?_⟩
  intro hmem
  exact hn _ hmem rfl

end Merkle

end Protocol

end CryptoCoin
