import CryptoCoin.Library.FreeHash
import CryptoCoin.Protocol.FirstLeaf

/-!
# Merkle proofs of the Haskell layer

`generateProof` and `verifyProof` of `CryptoCoin.Protocol.Merkle`. The generator walks from
the root down, takes at every level the leaf at the same position of the other half, and
ends with the leaf itself. The verifier combines from the leaf up and sorts every pair. It
starts at the leaf, so the leaf is combined once more at the end, where the tree combines
the roots of its halves. From two leaves on some hash function shows the difference, except
where all leaves are zero bytes and sorting and order agree.
-/

namespace CryptoCoin

namespace Protocol

namespace Merkle

/-! ### Generation -/

/-- The position from which a level of the proof is taken, for an index and half the
length. -/
def siblingIdx (i : ℤ) (half : ℕ) : ℕ :=
  (if i < half then half + i % half else i % half).toNat

theorem siblingIdx_lt (i : ℤ) {n : ℕ} (hn : 2 ≤ n) : siblingIdx i (n / 2) < n := by
  have hpos : (0 : ℤ) < (n / 2 : ℕ) := by omega
  have hnonneg := Int.emod_nonneg i hpos.ne'
  have hlt := Int.emod_lt_of_pos i hpos
  unfold siblingIdx
  split <;> omega

/-- The loop `go` of the source, which also passes the depth along without reading it. The
number bounds the recursion. -/
def proofFrom : ℕ → ℤ → List Hash → Option (List Hash)
  | _, _, [h] => some [h]
  | _, _, [] => none
  | 0, _, _ :: _ :: _ => none
  | fuel + 1, i, h :: h' :: rest =>
      let hs := h :: h' :: rest
      if i < 0 ∨ (hs.length : ℤ) ≤ i then none
      else
        let half := hs.length / 2
        let sibling := hs.get ⟨siblingIdx i half, siblingIdx_lt i (by simp [hs])⟩
        if i < half then (proofFrom fuel i (hs.take half)).map (sibling :: ·)
        else (proofFrom fuel (i - half) (hs.drop half)).map (sibling :: ·)

def generateProof (idx : ℤ) : List Hash → Option (List Hash)
  | [] => none
  | [h] => some [h]
  | hashes =>
      let padded := padToPowerOfTwo hashes
      proofFrom padded.length idx padded

/-- The indexing `!!` of the source, with `none` where it fails. -/
def index? (hashes : List Hash) (i : ℤ) : Option Hash :=
  if i < 0 then none else hashes[i.toNat]?

/-! ### Verification -/

def minHash (h₁ h₂ : Hash) : Hash := if h₂.bytes < h₁.bytes then h₂ else h₁

def maxHash (h₁ h₂ : Hash) : Hash := if h₂.bytes < h₁.bytes then h₁ else h₂

section

variable (hash : ByteString → Hash)

def combineSingles (h₁ h₂ : Hash) : Hash :=
  let leftH := minHash h₁ h₂
  let rightH := maxHash h₁ h₂
  combineHashes hash leftH rightH

def verifyProof (leafHash : Hash) (proof : List Hash) (expectedRoot : Hash) : Bool :=
  let computedRoot := proof.foldl (combineSingles hash) leafHash
  computedRoot = expectedRoot

end

def sortPair (h₁ h₂ : Hash) : Hash × Hash := (minHash h₁ h₂, maxHash h₁ h₂)

theorem sortPair_eq (h₁ h₂ : Hash) :
    sortPair h₁ h₂ = if h₂.bytes < h₁.bytes then (h₂, h₁) else (h₁, h₂) := by
  unfold sortPair minHash maxHash
  split <;> rfl

theorem sortPair_eq_or (h₁ h₂ : Hash) :
    sortPair h₁ h₂ = (h₁, h₂) ∨ sortPair h₁ h₂ = (h₂, h₁) := by
  rw [sortPair_eq]
  split
  · exact Or.inr rfl
  · exact Or.inl rfl

theorem sortPair_self (h : Hash) : sortPair h h = (h, h) :=
  (sortPair_eq_or h h).elim id id

theorem verifyProof_eq_true_iff (hash : ByteString → Hash) (leafHash : Hash) (proof : List Hash)
    (expectedRoot : Hash) :
    verifyProof hash leafHash proof expectedRoot = true ↔
      HashTree.ascend (combineHashes hash) sortPair leafHash proof = expectedRoot := by
  have hfold : ∀ x, proof.foldl (combineSingles hash) x =
      HashTree.ascend (combineHashes hash) sortPair x proof := by
    induction proof with
    | nil => exact fun _ => rfl
    | cons sibling proof ih => exact fun x => ih (combineSingles hash x sibling)
  rw [verifyProof, decide_eq_true_eq, hfold]

/-! ### What a proof contains -/

theorem proofFrom_of_two_le {fuel : ℕ} {i : ℤ} {hs : List Hash} (htwo : 2 ≤ hs.length) :
    proofFrom (fuel + 1) i hs = if i < 0 ∨ (hs.length : ℤ) ≤ i then none
      else if i < (hs.length / 2 : ℕ) then (proofFrom fuel i (hs.take (hs.length / 2))).map
        (hs.get ⟨siblingIdx i (hs.length / 2), siblingIdx_lt i htwo⟩ :: ·)
      else (proofFrom fuel (i - (hs.length / 2 : ℕ)) (hs.drop (hs.length / 2))).map
        (hs.get ⟨siblingIdx i (hs.length / 2), siblingIdx_lt i htwo⟩ :: ·) := by
  match hs, htwo with
  | h :: h' :: rest, _ => rfl

theorem generateProof_of_two_le {hashes : List Hash} (htwo : 2 ≤ hashes.length) (i : ℤ) :
    generateProof i hashes = proofFrom hashes.length i hashes := by
  match hashes, htwo with
  | h :: h' :: rest, htwo =>
      change proofFrom (padToPowerOfTwo _).length i (padToPowerOfTwo _) = _
      rw [padToPowerOfTwo_of_two_le htwo]

theorem index?_take {hs : List Hash} {i : ℤ} {k : ℕ} (h : i < k) :
    index? (hs.take k) i = index? hs i := by
  unfold index?
  split
  · rfl
  · rw [List.getElem?_take_of_lt (by omega)]

theorem index?_drop {hs : List Hash} {i : ℤ} {k : ℕ} (h : (k : ℤ) ≤ i) :
    index? (hs.drop k) (i - k) = index? hs i := by
  have hidx : k + (i - k).toNat = i.toNat := by omega
  rw [index?, index?, if_neg (by omega), if_neg (by omega), List.getElem?_drop, hidx]

theorem exists_of_proofFrom_singleton (fuel : ℕ) {i : ℤ} {hs : List Hash} (hlen : hs.length < 2)
    (hi : 0 ≤ i ∧ i < hs.length) :
    ∃ siblings leaf, proofFrom fuel i hs = some (siblings ++ [leaf]) ∧
      index? hs i = some leaf ∧ ∀ x ∈ siblings ++ [leaf], x ∈ hs := by
  obtain ⟨h, rfl⟩ : ∃ h, hs = [h] := List.length_eq_one_iff.mp (by omega)
  have hlt : i < 1 := by simpa using hi.2
  obtain rfl : i = 0 := by omega
  refine ⟨[], h, by cases fuel <;> rfl, rfl, ?_⟩
  intro x hx
  exact hx

/-- For an index in range the proof ends with the leaf, and all its hashes are leaves. -/
theorem exists_of_proofFrom {fuel : ℕ} {i : ℤ} {hs : List Hash} (hfuel : hs.length ≤ fuel + 1)
    (hi : 0 ≤ i ∧ i < hs.length) :
    ∃ siblings leaf, proofFrom fuel i hs = some (siblings ++ [leaf]) ∧
      index? hs i = some leaf ∧ ∀ x ∈ siblings ++ [leaf], x ∈ hs := by
  induction fuel generalizing i hs with
  | zero => exact exists_of_proofFrom_singleton 0 (by omega) hi
  | succ fuel ih =>
      by_cases htwo : 2 ≤ hs.length
      · rw [proofFrom_of_two_le htwo, if_neg (by omega)]
        have hsibling : hs.get ⟨siblingIdx i (hs.length / 2), siblingIdx_lt i htwo⟩ ∈ hs :=
          List.get_mem hs _
        by_cases hleft : i < (hs.length / 2 : ℕ)
        · have htake : (hs.take (hs.length / 2)).length = hs.length / 2 := by
            rw [List.length_take]; omega
          have hrange : 0 ≤ i ∧ i < (hs.take (hs.length / 2)).length := by omega
          obtain ⟨siblings, leaf, hproof, hleaf, hmem⟩ := ih (by omega) hrange
          rw [if_pos hleft, hproof]
          refine ⟨_ :: siblings, leaf, rfl, by rw [← hleaf, index?_take hleft], ?_⟩
          intro x hx
          rcases List.mem_cons.mp hx with rfl | hx
          · exact hsibling
          · exact List.mem_of_mem_take (hmem x hx)
        · have hdrop : (hs.drop (hs.length / 2)).length = hs.length - hs.length / 2 :=
            List.length_drop
          have hrange : 0 ≤ i - (hs.length / 2 : ℕ) ∧
              i - (hs.length / 2 : ℕ) < (hs.drop (hs.length / 2)).length := by omega
          obtain ⟨siblings, leaf, hproof, hleaf, hmem⟩ := ih (by omega) hrange
          rw [if_neg hleft, hproof]
          refine ⟨_ :: siblings, leaf, rfl, by rw [← hleaf, index?_drop (by omega)], ?_⟩
          intro x hx
          rcases List.mem_cons.mp hx with rfl | hx
          · exact hsibling
          · exact List.mem_of_mem_drop (hmem x hx)
      · exact exists_of_proofFrom_singleton _ (by omega) hi

theorem isSome_generateProof_iff {hashes : List Hash} (htwo : 2 ≤ hashes.length) (i : ℤ) :
    (generateProof i hashes).isSome ↔ 0 ≤ i ∧ i < hashes.length := by
  rw [generateProof_of_two_le htwo]
  by_cases hi : 0 ≤ i ∧ i < hashes.length
  · obtain ⟨siblings, leaf, hproof, _⟩ := exists_of_proofFrom (Nat.le_succ _) hi
    simp [hproof, hi]
  · obtain ⟨fuel, hfuel⟩ : ∃ fuel, hashes.length = fuel + 1 := ⟨hashes.length - 1, by omega⟩
    have hnone : proofFrom hashes.length i hashes = none := by
      rw [hfuel, proofFrom_of_two_le htwo, if_pos (by omega)]
    simp [hnone, hi]

/-! ### Complete proofs -/

/-- There is a proof exactly for an index in range, and it verifies for the leaf there. -/
def ProofCompleteAt (hash : ByteString → Hash) (i : ℤ) (hashes : List Hash) : Prop :=
  ((generateProof i hashes).isSome ↔ 0 ≤ i ∧ i < hashes.length) ∧
    ∀ proof, generateProof i hashes = some proof →
      ∃ leaf, index? hashes i = some leaf ∧
        verifyProof hash leaf proof (computeRoot hash hashes) = true

/-- Some hash function with 32-byte digests shows the index to be incomplete. -/
def SomeHashFails (i : ℤ) (hashes : List Hash) : Prop :=
  ∃ hash : ByteString → Hash, (∀ bs, (hash bs).bytes.length = 32) ∧ ¬ ProofCompleteAt hash i hashes

section Refute

variable {combine : Hash → Hash → Hash} (hdigest : ∀ a b, (combine a b).bytes.length = 32)
include hdigest

theorem ascend_ofCombine {x : Hash} (hx : x.bytes.length = 32) {siblings : List Hash}
    (hsized : ∀ h ∈ siblings, h.bytes.length = 32) :
    HashTree.ascend (combineHashes (ofCombine combine)) sortPair x siblings =
      HashTree.ascend combine sortPair x siblings := by
  induction siblings generalizing x with
  | nil => rfl
  | cons sibling siblings ih =>
      have hfst : (sortPair x sibling).1.bytes.length = 32 := by
        rcases sortPair_eq_or x sibling with heq | heq
        · rw [heq, hx]
        · rw [heq, hsized sibling List.mem_cons_self]
      rw [HashTree.ascend, HashTree.ascend, combineHashes_ofCombine combine hfst,
        ih (hdigest _ _) fun h hh => hsized h (List.mem_cons_of_mem sibling hh)]

/-- A combiner under which the verifier does not reach the root shows a proof to be
incomplete. -/
theorem someHashFails {hashes : List Hash} (htwo : 2 ≤ hashes.length)
    (hsized : ∀ h ∈ hashes, h.bytes.length = 32) {i : ℤ} {leaf : Hash} {proof : List Hash}
    (hproof : generateProof i hashes = some proof) (hleaf : index? hashes i = some leaf)
    (hmem : ∀ h ∈ leaf :: proof, h ∈ hashes)
    (hne : ∀ tree, HashTree.Halves combine hashes tree →
      HashTree.ascend combine sortPair leaf proof ≠ tree.rootHash) :
    SomeHashFails i hashes := by
  refine ⟨ofCombine combine, fun _ => hdigest _ _, ?_⟩
  rintro ⟨_, hcomplete⟩
  obtain ⟨leaf', hleaf', hverify⟩ := hcomplete proof hproof
  obtain rfl : leaf' = leaf := Option.some.inj (hleaf'.symm.trans hleaf)
  rw [verifyProof_eq_true_iff, ascend_ofCombine hdigest (hsized _ (hmem _ List.mem_cons_self))
    fun h hh => hsized h (hmem h (List.mem_cons_of_mem _ hh)),
    computeRoot_of_two_le _ htwo] at hverify
  exact hne _ (halves_ofCombine hdigest htwo hsized) hverify

end Refute

theorem exists_fresh_pair {l : List Hash} (hl : l.length < 2 ^ 62) :
    ∃ u v : Hash, u.bytes.length = 32 ∧ v.bytes.length = 32 ∧ u ∉ l ∧ v ∉ l ∧ u ≠ v := by
  obtain ⟨u, hu, hul⟩ := exists_sized_notMem (l := l) (by omega)
  obtain ⟨v, hv, hvl⟩ := exists_sized_notMem (l := u :: l) (by rw [List.length_cons]; omega)
  rw [List.mem_cons, not_or] at hvl
  exact ⟨u, v, hu, hv, hul, hvl.2, fun h => hvl.1 h.symm⟩

theorem length_mark {seen unseen : Hash} (hseen : seen.bytes.length = 32)
    (hunseen : unseen.bytes.length = 32) (s a b : Hash) :
    (HashTree.mark s seen unseen a b).bytes.length = 32 := by
  unfold HashTree.mark
  split
  · exact hseen
  · exact hunseen

/-- Four hashes or more: the leaf is a child of the root that the verifier computes, but not
of the root of the tree. -/
theorem someHashFails_of_four_le {hashes : List Hash} (hfour : 4 ≤ hashes.length)
    (hsized : ∀ h ∈ hashes, h.bytes.length = 32) {i : ℤ} (hi : 0 ≤ i ∧ i < hashes.length) :
    SomeHashFails i hashes := by
  obtain ⟨siblings, leaf, hproof, hleaf, hmem⟩ := exists_of_proofFrom (Nat.le_succ _) hi
  rw [← generateProof_of_two_le (by omega)] at hproof
  obtain ⟨seen, unseen, hseen, hunseen, hseenLeaf, hunseenLeaf, hdiff⟩ :=
    exists_fresh_pair (l := [leaf]) (by simp)
  rw [List.mem_singleton] at hseenLeaf hunseenLeaf
  have hleafMem := hmem leaf (List.mem_append_right _ (List.mem_singleton_self leaf))
  apply someHashFails (length_mark hseen hunseen leaf) (by omega) hsized hproof hleaf
  · intro h hh
    rcases List.mem_cons.mp hh with rfl | hh
    · exact hleafMem
    · exact hmem h hh
  · intro tree htree
    rw [HashTree.ascend_mark sortPair_eq_or, List.foldl_append, List.foldl_cons, List.foldl_nil,
      HashTree.mark, if_pos (Or.inr rfl), htree.rootHash_mark hseenLeaf hunseenLeaf hfour]
    exact hdiff

/-- The parity of the number of combinations tells the verifier from the tree. -/
theorem someHashFails_of_parity {hashes : List Hash} (htwo : 2 ≤ hashes.length)
    (hshort : hashes.length < 2 ^ 62) (hsized : ∀ h ∈ hashes, h.bytes.length = 32) {i : ℤ}
    {leaf : Hash} {proof : List Hash} (hproof : generateProof i hashes = some proof)
    (hleaf : index? hashes i = some leaf) (hmem : ∀ h ∈ leaf :: proof, h ∈ hashes)
    (hcons : proof ≠ [])
    (hroot : ∀ odd even tree, odd ∉ hashes → even ≠ odd →
      HashTree.Halves (HashTree.mark odd even odd) hashes tree →
        tree.rootHash = if proof.length % 2 = 1 then even else odd) :
    SomeHashFails i hashes := by
  obtain ⟨odd, even, hodd, heven, hoddMem, _, hdiff⟩ := exists_fresh_pair hshort
  have hne : ∀ h ∈ leaf :: proof, h ≠ odd := by
    rintro h hh rfl
    exact hoddMem (hmem h hh)
  apply someHashFails (length_mark heven hodd odd) htwo hsized hproof hleaf hmem
  intro tree htree
  rw [HashTree.ascend_mark sortPair_eq_or, HashTree.foldl_mark_parity hdiff.symm
    (hne leaf List.mem_cons_self) (fun h hh => hne h (List.mem_cons_of_mem _ hh)) hcons,
    hroot odd even tree hoddMem hdiff.symm htree]
  split
  · exact hdiff
  · exact hdiff.symm

theorem someHashFails_pair {a b : Hash} (hsized : ∀ h ∈ [a, b], h.bytes.length = 32)
    {i : ℤ} (hi : i = 0 ∨ i = 1) : SomeHashFails i [a, b] := by
  have hroot : ∀ odd even tree, odd ∉ [a, b] → even ≠ odd →
      HashTree.Halves (HashTree.mark odd even odd) [a, b] tree → tree.rootHash = odd := by
    intro odd even tree hodd _ htree
    rw [htree.eq_pair, HashTree.rootHash, HashTree.mark, if_neg]
    rintro (rfl | rfl)
    · exact hodd List.mem_cons_self
    · exact hodd (List.mem_cons_of_mem _ List.mem_cons_self)
  have hfails : ∀ {i : ℤ} {leaf x y : Hash}, generateProof i [a, b] = some [x, y] →
      index? [a, b] i = some leaf → (∀ h ∈ [leaf, x, y], h ∈ [a, b]) →
      SomeHashFails i [a, b] := by
    intro i leaf x y hproof hleaf hmem
    exact someHashFails_of_parity le_rfl (by simp) hsized hproof hleaf hmem
      (List.cons_ne_nil _ _) (by simpa using hroot)
  rcases hi with rfl | rfl
  · have hproof : generateProof 0 [a, b] = some [b, a] := by
      rw [generateProof_of_two_le le_rfl]
      simp [proofFrom, siblingIdx]
    exact hfails hproof rfl (by simp)
  · have hproof : generateProof 1 [a, b] = some [a, b] := by
      rw [generateProof_of_two_le le_rfl]
      simp [proofFrom, siblingIdx]
    exact hfails hproof rfl (by simp)

/-- The second and the third of three hashes: the verifier combines three times, and their
leaves are two levels below the root. -/
theorem someHashFails_triple {a b c : Hash} (hsized : ∀ h ∈ [a, b, c], h.bytes.length = 32)
    {i : ℤ} (hi : i = 1 ∨ i = 2) : SomeHashFails i [a, b, c] := by
  have htwo : 2 ≤ [a, b, c].length := by simp
  have hroot : ∀ odd even tree, odd ∉ [a, b, c] → even ≠ odd →
      HashTree.Halves (HashTree.mark odd even odd) [a, b, c] tree → tree.rootHash = even := by
    intro odd even tree hodd _ htree
    have hright : HashTree.mark odd even odd b c = odd := by
      rw [HashTree.mark, if_neg]
      rintro (rfl | rfl)
      · exact hodd (by simp)
      · exact hodd (by simp)
    rw [htree.rootHash_triple, hright, HashTree.mark, if_pos (Or.inr rfl)]
  have hfails : ∀ {i : ℤ} {leaf x y z : Hash}, generateProof i [a, b, c] = some [x, y, z] →
      index? [a, b, c] i = some leaf → (∀ h ∈ [leaf, x, y, z], h ∈ [a, b, c]) →
      SomeHashFails i [a, b, c] := by
    intro i leaf x y z hproof hleaf hmem
    exact someHashFails_of_parity htwo (by simp) hsized hproof hleaf hmem
      (List.cons_ne_nil _ _) (by simpa using hroot)
  rcases hi with rfl | rfl
  · have hproof : generateProof 1 [a, b, c] = some [a, c, b] := by
      rw [generateProof_of_two_le htwo]
      simp [proofFrom, siblingIdx]
    exact hfails hproof rfl (by simp)
  · have hproof : generateProof 2 [a, b, c] = some [a, b, c] := by
      rw [generateProof_of_two_le htwo]
      simp [proofFrom, siblingIdx]
    exact hfails hproof rfl (by simp)

/-! ### The first of three hashes -/

theorem generateProof_triple_zero (a b c : Hash) : generateProof 0 [a, b, c] = some [b, a] := by
  rw [generateProof_of_two_le (by simp)]
  simp [proofFrom, siblingIdx]

/-- The combiner that gives `u` for two pairs and `v` for all others. -/
def splitCombine (p q : Hash × Hash) (u v a b : Hash) : Hash :=
  if (a, b) = p ∨ (a, b) = q then u else v

theorem length_splitCombine {u v : Hash} (hu : u.bytes.length = 32) (hv : v.bytes.length = 32)
    (p q : Hash × Hash) (a b : Hash) : (splitCombine p q u v a b).bytes.length = 32 := by
  unfold splitCombine
  split
  · exact hu
  · exact hv

theorem someHashFails_zero {a b c : Hash}
    (hsized : ∀ h ∈ [a, b, c], h.bytes.length = 32) (hpair : sortPair a b ≠ (b, c)) :
    SomeHashFails 0 [a, b, c] := by
  obtain ⟨u, v, hu, hv, huMem, hvMem, hdiff⟩ := exists_fresh_pair (l := [a, b, c]) (by simp)
  simp only [List.mem_cons, List.not_mem_nil, or_false, not_or] at huMem hvMem
  obtain ⟨hua, hub, _⟩ := huMem
  obtain ⟨_, _, hvc⟩ := hvMem
  apply someHashFails (length_splitCombine hu hv (sortPair a b) (a, v)) (by simp) hsized
    (generateProof_triple_zero a b c) rfl (by simp)
  intro tree htree
  have hright : splitCombine (sortPair a b) (a, v) u v b c = v := by
    rw [splitCombine, if_neg]
    rintro (heq | heq)
    · exact hpair heq.symm
    · exact hvc (Prod.mk.inj heq).2.symm
  have hroot : splitCombine (sortPair a b) (a, v) u v a v = u := if_pos (Or.inr rfl)
  have hfirst : splitCombine (sortPair a b) (a, v) u v (sortPair a b).1 (sortPair a b).2 = u :=
    if_pos (Or.inl rfl)
  have hsecond : splitCombine (sortPair a b) (a, v) u v (sortPair u a).1 (sortPair u a).2 = v := by
    -- one of the two is `u`, which neither pair contains
    rw [splitCombine, if_neg]
    rcases sortPair_eq_or u a with hua' | hua' <;> rcases sortPair_eq_or a b with hab | hab <;>
      rw [hua', hab] <;> simp only [Prod.mk.injEq, hua, hub, hdiff, false_and, and_false, or_self,
        not_false_eq_true]
  rw [htree.rootHash_triple, hright, hroot, HashTree.ascend, hfirst, HashTree.ascend, hsecond]
  exact hdiff.symm

theorem eq_replicate_of_not_lt {n : ℕ} {bs : ByteString} (h : ¬ List.replicate n 0 < bs) :
    bs = List.replicate bs.length 0 := by
  induction bs generalizing n with
  | nil => rfl
  | cons b bs ih =>
      cases n with
      | zero => exact absurd (List.nil_lt_cons b bs) h
      | succ n =>
          rw [List.replicate_succ, List.cons_lt_cons_iff, not_or] at h
          have hb : b = 0 := by
            by_contra hb
            exact h.1 (UInt8.pos_iff_ne_zero.mpr hb)
          have hrest := ih fun hlt => h.2 ⟨hb.symm, hlt⟩
          rw [List.length_cons, List.replicate_succ, hb, ← hrest]

theorem eq_emptyTreeHash_of_not_lt {h : Hash} (hlen : h.bytes.length = 32)
    (hnot : ¬ emptyTreeHash.bytes < h.bytes) : h = emptyTreeHash := by
  have hzero := eq_replicate_of_not_lt hnot
  rw [hlen] at hzero
  exact congrArg Hash.mk hzero

/-- The verifier starts with the pair that the tree combines first, and sorts the next one
the other way round. -/
theorem someHashFails_sorted {a b : Hash}
    (hsized : ∀ h ∈ [a, b, a], h.bytes.length = 32) (hpair : sortPair a b = (b, a))
    (ha : a ≠ emptyTreeHash) :
    SomeHashFails 0 [a, b, a] := by
  have hlen : a.bytes.length = 32 := hsized a List.mem_cons_self
  have hempty : emptyTreeHash.bytes.length = 32 := rfl
  have hlt : emptyTreeHash.bytes < a.bytes := by
    by_contra hnot
    exact ha (eq_emptyTreeHash_of_not_lt hlen hnot)
  apply someHashFails (length_splitCombine hlen hempty (a, emptyTreeHash) (a, emptyTreeHash))
    (by simp) hsized (generateProof_triple_zero a b a) rfl (by simp)
  intro tree htree
  have hother : ∀ x, splitCombine (a, emptyTreeHash) (a, emptyTreeHash) a emptyTreeHash x a =
      emptyTreeHash := by
    intro x
    rw [splitCombine, if_neg]
    simp [ha]
  have hroot : splitCombine (a, emptyTreeHash) (a, emptyTreeHash) a emptyTreeHash a
      emptyTreeHash = a := if_pos (Or.inl rfl)
  have hsort : sortPair emptyTreeHash a = (emptyTreeHash, a) := by
    rw [sortPair_eq, if_neg (List.lt_asymm hlt)]
  rw [htree.rootHash_triple, hother, hroot, HashTree.ascend, hpair, hother, HashTree.ascend, hsort,
    hother, HashTree.ascend]
  exact ha.symm

/-- Three zero hashes: zero bytes may be put in front or behind. -/
theorem proofCompleteAt_zeros (hash : ByteString → Hash) :
    ProofCompleteAt hash 0 [emptyTreeHash, emptyTreeHash, emptyTreeHash] := by
  have htwo : 2 ≤ [emptyTreeHash, emptyTreeHash, emptyTreeHash].length := by simp
  refine ⟨isSome_generateProof_iff htwo 0, ?_⟩
  intro proof hproof
  rw [generateProof_triple_zero, Option.some.injEq] at hproof
  subst hproof
  refine ⟨emptyTreeHash, rfl, ?_⟩
  have hcomm : ∀ y : Hash, combineHashes hash (sortPair y emptyTreeHash).1
      (sortPair y emptyTreeHash).2 = combineHashes hash emptyTreeHash y := by
    intro y
    rw [sortPair_eq]
    by_cases hlt : emptyTreeHash.bytes < y.bytes
    · rw [if_pos hlt]
    · rw [if_neg hlt, combineHashes, combineHashes, eq_replicate_of_not_lt hlt, emptyTreeHash,
        List.replicate_append_replicate, List.replicate_append_replicate, Nat.add_comm]
  rw [verifyProof_eq_true_iff, computeRoot_of_two_le hash htwo,
    (halves_paddedTree hash htwo).rootHash_triple, HashTree.ascend, sortPair_self, HashTree.ascend,
    hcomm, HashTree.ascend]

/-! ### Exactly when proofs are complete -/

theorem proofCompleteAt_singleton_iff (hash : ByteString → Hash) (h : Hash) (i : ℤ) :
    ProofCompleteAt hash i [h] ↔ i = 0 := by
  constructor
  · rintro ⟨hsome, _⟩
    have hrange := hsome.mp rfl
    have hlt : i < 1 := by simpa using hrange.2
    omega
  · rintro rfl
    refine ⟨by simp [generateProof], ?_⟩
    intro proof hproof
    cases hproof
    refine ⟨h, rfl, ?_⟩
    rw [verifyProof_eq_true_iff, HashTree.ascend, sortPair_self]
    rfl

theorem proofCompleteAt_of_not_range (hash : ByteString → Hash) {hashes : List Hash}
    (htwo : 2 ≤ hashes.length) {i : ℤ} (hi : ¬ (0 ≤ i ∧ i < hashes.length)) :
    ProofCompleteAt hash i hashes := by
  refine ⟨isSome_generateProof_iff htwo i, ?_⟩
  intro proof hproof
  exact absurd ((isSome_generateProof_iff htwo i).mp (by rw [hproof]; rfl)) hi

theorem someHashFails_of_range {hashes : List Hash} (htwo : 2 ≤ hashes.length)
    (hsized : ∀ h ∈ hashes, h.bytes.length = 32) {i : ℤ} (hi : 0 ≤ i ∧ i < hashes.length)
    (hzeros : ¬ (i = 0 ∧ hashes = List.replicate 3 emptyTreeHash)) :
    SomeHashFails i hashes := by
  rcases hashes with _ | ⟨a, _ | ⟨b, _ | ⟨c, _ | ⟨d, rest⟩⟩⟩⟩
  · exact absurd htwo (by simp)
  · exact absurd htwo (by simp)
  · simp only [List.length_cons, List.length_nil] at hi
    exact someHashFails_pair hsized (by omega)
  · simp only [List.length_cons, List.length_nil] at hi
    have hcases : i = 0 ∨ i = 1 ∨ i = 2 := by omega
    rcases hcases with rfl | hi
    · by_cases hpair : sortPair a b = (b, c)
      · obtain rfl : a = c := by
          rcases sortPair_eq_or a b with heq | heq
          · rw [heq, Prod.mk.injEq] at hpair
            exact hpair.1.trans hpair.2
          · rw [heq, Prod.mk.injEq] at hpair
            exact hpair.2
        by_cases ha : a = emptyTreeHash
        · -- the other hash does not lie above zero bytes either
          have hb : b = emptyTreeHash := by
            apply eq_emptyTreeHash_of_not_lt (hsized b (by simp))
            intro hlt
            rw [ha, sortPair_eq, if_neg (List.lt_asymm hlt), Prod.mk.injEq] at hpair
            rw [← hpair.1] at hlt
            exact List.lt_irrefl _ hlt
          exact absurd ⟨rfl, by rw [ha, hb]; rfl⟩ hzeros
        · exact someHashFails_sorted hsized hpair ha
      · exact someHashFails_zero hsized hpair
    · exact someHashFails_triple hsized hi
  · exact someHashFails_of_four_le (by simp) hsized hi

/-- For an index of a list of 32-byte hashes, generation and verification are complete
whatever the hash function is, if and only if the list has one member and the index is 0, or
it has more and the index is out of range, or it consists of three zero hashes and the
index is 0. -/
theorem generateProof_complete_iff {hashes : List Hash} (hne : hashes ≠ [])
    (hsized : ∀ h ∈ hashes, h.bytes.length = 32) (i : ℤ) :
    (∀ hash, ProofCompleteAt hash i hashes) ↔
      (hashes.length = 1 ∧ i = 0) ∨ (2 ≤ hashes.length ∧ ¬ (0 ≤ i ∧ i < hashes.length)) ∨
        (i = 0 ∧ hashes = List.replicate 3 emptyTreeHash) := by
  have hpos := List.length_pos_of_ne_nil hne
  constructor
  · intro hcomplete
    rcases Nat.lt_or_ge hashes.length 2 with hone | htwo
    · have hlen : hashes.length = 1 := by omega
      obtain ⟨h, rfl⟩ := List.length_eq_one_iff.mp hlen
      exact Or.inl ⟨hlen, (proofCompleteAt_singleton_iff _ h i).mp (hcomplete Crypto.hash)⟩
    · by_cases hi : 0 ≤ i ∧ i < hashes.length
      · refine Or.inr (Or.inr ?_)
        by_contra hzeros
        obtain ⟨hash, _, hnot⟩ := someHashFails_of_range htwo hsized hi hzeros
        exact hnot (hcomplete hash)
      · exact Or.inr (Or.inl ⟨htwo, hi⟩)
  · rintro (⟨hlen, hi⟩ | ⟨htwo, hi⟩ | ⟨rfl, rfl⟩) hash
    · obtain ⟨h, rfl⟩ := List.length_eq_one_iff.mp hlen
      exact (proofCompleteAt_singleton_iff hash h i).mpr hi
    · exact proofCompleteAt_of_not_range hash htwo hi
    · exact proofCompleteAt_zeros hash

theorem generateProof_complete_zero :
    [emptyTreeHash] ≠ [] ∧ ∀ hash, ProofCompleteAt hash 0 [emptyTreeHash] := by
  refine ⟨List.cons_ne_nil _ _, ?_⟩
  apply (generateProof_complete_iff (List.cons_ne_nil _ _) _ 0).mpr (Or.inl ⟨rfl, rfl⟩)
  intro h hh
  rw [List.mem_singleton.mp hh]
  rfl

def byteHash (b : UInt8) : Hash := ⟨List.replicate 32 b⟩

theorem length_byteHash (b : UInt8) : (byteHash b).bytes.length = 32 := List.length_replicate

/-- The two leaves of a tree under the repository's own hash: the verifier starts with the
smaller one, which is not the first. A single leaf has a proof at every index. -/
theorem descending_pair_not_complete :
    ¬ ProofCompleteAt Crypto.hash 0 [byteHash 2, byteHash 1] ∧
      generateProof 5 [byteHash 2] = some [byteHash 2] := by
  refine ⟨?_, rfl⟩
  rintro ⟨_, hcomplete⟩
  obtain ⟨leaf, hleaf, hverify⟩ := hcomplete [byteHash 1, byteHash 2] (by
    rw [generateProof_of_two_le le_rfl]
    simp [proofFrom, siblingIdx])
  obtain rfl : byteHash 2 = leaf := Option.some.inj hleaf
  have hfirst : sortPair (byteHash 2) (byteHash 1) = (byteHash 1, byteHash 2) := by decide
  have hsecond : sortPair (byteHash 1) (byteHash 2) = (byteHash 1, byteHash 2) := by decide
  have hcombine : combineHashes Crypto.hash (byteHash 1) (byteHash 2) = byteHash 1 :=
    combineHashes_hash (length_byteHash 1) (length_byteHash 2)
  have hroot : computeRoot Crypto.hash [byteHash 2, byteHash 1] = byteHash 2 :=
    computeRoot_hash (by simp [length_byteHash])
  rw [verifyProof_eq_true_iff, hroot, HashTree.ascend, hfirst, hcombine, HashTree.ascend, hsecond,
    hcombine, HashTree.ascend] at hverify
  exact absurd hverify (by decide)

end Merkle

end Protocol

end CryptoCoin
