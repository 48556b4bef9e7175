import CryptoCoin.Protocol.Block
import Mathlib.Data.UInt

/-!
# What the root in a header fixes of the body

The root of a header combines the Merkle roots of the transaction hashes and of
the vote hashes. Lists of equal length with equal roots are equal, up to a
collision among the hash arguments that occur. Lists of different lengths are
not told apart: a single leaf is hashed with itself, like a pair of equal leaves,
and the root of the empty list is a possible hash.

The hash function is arbitrary here, with digests of 32 bytes.
-/

namespace CryptoCoin

namespace Protocol

open Merkle (computeRoot combineHashes rootInputs emptyTreeHash)

section

variable (hash : ByteString → Hash)

def txHashes (body : BlockBody) : List Hash := body.bbTransactions.map (txHash hash)

def voteHashes (body : BlockBody) : List Hash := body.bbVotes.map (voteHash hash)

/-- The arguments of `combineHashes` that occur while the root of a body is
computed. -/
def bodyInputs (body : BlockBody) : List (Hash × Hash) :=
  (computeRoot hash (txHashes hash body), computeRoot hash (voteHashes hash body)) ::
    (rootInputs hash (txHashes hash body) ++ rootInputs hash (voteHashes hash body))

theorem rootInputs_txHashes_subset (body : BlockBody) :
    rootInputs hash (txHashes hash body) ⊆ bodyInputs hash body :=
  fun _ hp => List.mem_cons_of_mem _ (List.mem_append_left _ hp)

theorem rootInputs_voteHashes_subset (body : BlockBody) :
    rootInputs hash (voteHashes hash body) ⊆ bodyInputs hash body :=
  fun _ hp => List.mem_cons_of_mem _ (List.mem_append_right _ hp)

/-- The root fixes the body's hashes, or a collision occurred. -/
def BodyBound (b₁ b₂ : BlockBody) : Prop :=
  bodyRoot hash b₁ = bodyRoot hash b₂ →
    (txHashes hash b₁ = txHashes hash b₂ ∧ voteHashes hash b₁ = voteHashes hash b₂) ∨
      HashTree.Collision (combineHashes hash) (bodyInputs hash b₁ ++ bodyInputs hash b₂)

theorem bodyBound_of_length_eq {b₁ b₂ : BlockBody}
    (htx : b₁.bbTransactions.length = b₂.bbTransactions.length)
    (hvote : b₁.bbVotes.length = b₂.bbVotes.length) : BodyBound hash b₁ b₂ := by
  intro hroot
  by_cases hcol : HashTree.Collision (combineHashes hash)
      (bodyInputs hash b₁ ++ bodyInputs hash b₂)
  · exact Or.inr hcol
  · left
    have hcombined : combineHashes hash (computeRoot hash (txHashes hash b₁))
        (computeRoot hash (voteHashes hash b₁)) =
        combineHashes hash (computeRoot hash (txHashes hash b₂))
          (computeRoot hash (voteHashes hash b₂)) := congrArg MerkleRoot.unMerkleRoot hroot
    obtain ⟨htxRoot, hvoteRoot⟩ := HashTree.eq_of_not_collision hcol
      (List.mem_append_left _ List.mem_cons_self)
      (List.mem_append_right _ List.mem_cons_self) hcombined
    constructor
    · apply Merkle.eq_of_computeRoot_eq hash _ htxRoot
      · exact fun hc => hcol (hc.append_mono (rootInputs_txHashes_subset hash b₁)
          (rootInputs_txHashes_subset hash b₂))
      · rw [txHashes, txHashes, List.length_map, List.length_map, htx]
    · apply Merkle.eq_of_computeRoot_eq hash _ hvoteRoot
      · exact fun hc => hcol (hc.append_mono (rootInputs_voteHashes_subset hash b₁)
          (rootInputs_voteHashes_subset hash b₂))
      · rw [voteHashes, voteHashes, List.length_map, List.length_map, hvote]

end

/-! ### The hash that forgets everything -/

def zeroHash (_ : ByteString) : Hash := emptyTreeHash

theorem bodyRoot_zeroHash (body : BlockBody) :
    bodyRoot zeroHash body = ⟨emptyTreeHash⟩ ∧
      ∀ p ∈ bodyInputs zeroHash body, p = (emptyTreeHash, emptyTreeHash) := by
  have htx : ∀ x ∈ txHashes zeroHash body, x = emptyTreeHash := by
    intro x hx
    obtain ⟨tx, _, rfl⟩ := List.mem_map.mp hx
    rfl
  have hvote : ∀ x ∈ voteHashes zeroHash body, x = emptyTreeHash := by
    intro x hx
    obtain ⟨vote, _, rfl⟩ := List.mem_map.mp hx
    rfl
  have hconst : ∀ bs, zeroHash bs = emptyTreeHash := fun _ => rfl
  obtain ⟨htxRoot, htxInputs⟩ := Merkle.computeRoot_of_fixed hconst htx
  obtain ⟨hvoteRoot, hvoteInputs⟩ := Merkle.computeRoot_of_fixed hconst hvote
  refine ⟨rfl, ?_⟩
  intro p hp
  rw [bodyInputs, List.mem_cons, List.mem_append] at hp
  rcases hp with rfl | hp | hp
  · rw [htxRoot, hvoteRoot]
  · exact htxInputs p hp
  · exact hvoteInputs p hp

theorem not_collision_zeroHash (b₁ b₂ : BlockBody) :
    ¬ HashTree.Collision (combineHashes zeroHash)
      (bodyInputs zeroHash b₁ ++ bodyInputs zeroHash b₂) := by
  have hall : ∀ p ∈ bodyInputs zeroHash b₁ ++ bodyInputs zeroHash b₂,
      p = (emptyTreeHash, emptyTreeHash) := by
    intro p hp
    rcases List.mem_append.mp hp with hp | hp
    · exact (bodyRoot_zeroHash b₁).2 p hp
    · exact (bodyRoot_zeroHash b₂).2 p hp
  rintro ⟨p, hp, q, hq, hne, _⟩
  exact hne ((hall p hp).trans (hall q hq).symm)

/-- For two bodies, whatever the hash function is, the root fixes the hashes up to
collisions if and only if the bodies have equally many transactions and equally
many votes. -/
theorem bodyBound_iff (b₁ b₂ : BlockBody) :
    (∀ hash : ByteString → Hash, (∀ bs, (hash bs).bytes.length = 32) →
        BodyBound hash b₁ b₂) ↔
      b₁.bbTransactions.length = b₂.bbTransactions.length ∧
        b₁.bbVotes.length = b₂.bbVotes.length := by
  constructor
  · intro h
    have hroots : bodyRoot zeroHash b₁ = bodyRoot zeroHash b₂ :=
      (bodyRoot_zeroHash b₁).1.trans (bodyRoot_zeroHash b₂).1.symm
    rcases h zeroHash (fun _ => rfl) hroots with ⟨htx, hvote⟩ | hcol
    · constructor
      · simpa [txHashes] using congrArg List.length htx
      · simpa [voteHashes] using congrArg List.length hvote
    · exact absurd hcol (not_collision_zeroHash b₁ b₂)
  · rintro ⟨htx, hvote⟩ hash _
    exact bodyBound_of_length_eq hash htx hvote

/-! ### A transaction doubled under one root -/

/-- A hash that repeats one more than the sum of the bytes. -/
def sumHash (bs : ByteString) : Hash := ⟨List.replicate 32 (bs.sum + 1)⟩

def transfer : Transaction :=
  { txId := ⟨⟨List.replicate 32 2⟩⟩
    txInputs := [⟨⟨⟨⟨List.replicate 32 1⟩⟩, 0⟩⟩]
    txOutputs := [⟨⟨List.replicate 20 0xBB⟩, ⟨5⟩, none⟩]
    txSignature := ⟨[]⟩
    txPublicKey := ⟨List.replicate 32 7⟩
    txNonce := 0
    txFee := ⟨0⟩ }

set_option maxRecDepth 20000 in
/-- The body with a transaction and the body with it twice have one root, and no
collision occurs. -/
theorem transfer_doubled :
    (∀ bs, (sumHash bs).bytes.length = 32) ∧
      ¬ BodyBound sumHash ⟨[transfer], []⟩ ⟨[transfer, transfer], []⟩ := by
  refine ⟨fun _ => rfl, fun h => ?_⟩
  rcases h rfl with ⟨htx, _⟩ | hcol
  · exact absurd (congrArg List.length htx) (by decide)
  · revert hcol
    unfold HashTree.Collision
    decide

end Protocol

end CryptoCoin
