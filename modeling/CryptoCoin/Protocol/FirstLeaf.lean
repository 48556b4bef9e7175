import CryptoCoin.Protocol.Crypto
import CryptoCoin.Protocol.Merkle

/-!
# Trees under the repository's own hash

The hash of `CryptoCoin.Protocol.Crypto` keeps the first 32 bytes of an input that fits
into one block. Two hashes do, so `combineHashes` returns its first argument and the root
of a list of 32-byte hashes is its first member.
-/

namespace CryptoCoin

namespace Protocol

namespace Merkle

theorem hash_append {r : Hash} (hr : r.bytes.length = 32) {x : ByteString}
    (hx : x.length < 104) : Crypto.hash (r.bytes ++ x) = r := by
  rw [Crypto.hash, Crypto.sha3_256_append_of_lt hr hx]

theorem combineHashes_hash {a b : Hash} (ha : a.bytes.length = 32) (hb : b.bytes.length = 32) :
    combineHashes Crypto.hash a b = a :=
  hash_append ha (by rw [hb]; decide)

/-- The root is the first leaf. -/
theorem computeRoot_hash {h : Hash} {hashes : List Hash}
    (hsized : ∀ x ∈ h :: hashes, x.bytes.length = 32) :
    computeRoot Crypto.hash (h :: hashes) = h := by
  cases hashes with
  | nil => exact combineHashes_hash (hsized h List.mem_cons_self) (hsized h List.mem_cons_self)
  | cons h' hashes =>
      have htwo : 2 ≤ (h :: h' :: hashes).length := by simp
      have hhead := (halves_paddedTree Crypto.hash htwo).head?_eq
        (P := fun x => x.bytes.length = 32) (fun _ _ => combineHashes_hash) hsized
      rw [computeRoot_of_two_le Crypto.hash htwo]
      exact (Option.some.inj hhead).symm

/-- A leaf has an influence on the root exactly when it is the first. -/
theorem computeRoot_reads_iff {hashes : List Hash} (htwo : 2 ≤ hashes.length)
    (hsized : ∀ x ∈ hashes, x.bytes.length = 32) {i : ℕ} (hi : i < hashes.length) :
    (∃ h : Hash, h.bytes.length = 32 ∧
        computeRoot Crypto.hash (hashes.set i h) ≠ computeRoot Crypto.hash hashes) ↔
      i = 0 := by
  rcases hashes with _ | ⟨first, rest⟩
  · simp at htwo
  · cases i with
    | zero =>
        obtain ⟨h, hlen, hother⟩ := exists_sized_notMem (l := [first]) (by simp)
        have hsized' : ∀ x ∈ h :: rest, x.bytes.length = 32 :=
          List.forall_mem_cons.mpr ⟨hlen, (List.forall_mem_cons.mp hsized).2⟩
        refine iff_of_true ⟨h, hlen, ?_⟩ rfl
        rw [List.set_cons_zero, computeRoot_hash hsized', computeRoot_hash hsized]
        exact fun heq => hother (List.mem_singleton.mpr heq)
    | succ i =>
        refine iff_of_false ?_ i.succ_ne_zero
        rintro ⟨h, hlen, hne⟩
        apply hne
        have hsized' : ∀ x ∈ first :: rest.set i h, x.bytes.length = 32 := by
          intro x hx
          rcases List.mem_cons.mp hx with rfl | hx
          · exact hsized x List.mem_cons_self
          · rcases List.mem_or_eq_of_mem_set hx with hx | rfl
            · exact hsized x (List.mem_cons_of_mem _ hx)
            · exact hlen
        rw [List.set_cons_succ, computeRoot_hash hsized', computeRoot_hash hsized]

theorem computeRoot_reads_first :
    2 ≤ [emptyTreeHash, emptyTreeHash].length ∧
      ∃ h : Hash, h.bytes.length = 32 ∧
        computeRoot Crypto.hash ([emptyTreeHash, emptyTreeHash].set 0 h) ≠
          computeRoot Crypto.hash [emptyTreeHash, emptyTreeHash] :=
  ⟨le_rfl, (computeRoot_reads_iff le_rfl (by decide) (by decide)).mpr rfl⟩

theorem computeRoot_ignores_second :
    (∀ x ∈ [emptyTreeHash, emptyTreeHash], x.bytes.length = 32) ∧
      ∀ h : Hash, h.bytes.length = 32 →
        computeRoot Crypto.hash ([emptyTreeHash, emptyTreeHash].set 1 h) =
          computeRoot Crypto.hash [emptyTreeHash, emptyTreeHash] := by
  have hempty : emptyTreeHash.bytes.length = 32 := by decide
  refine ⟨by simp [hempty], fun h hlen => ?_⟩
  rw [List.set_cons_succ, List.set_cons_zero, computeRoot_hash (by simp [hempty, hlen]),
    computeRoot_hash (by simp [hempty])]

end Merkle

end Protocol

end CryptoCoin
