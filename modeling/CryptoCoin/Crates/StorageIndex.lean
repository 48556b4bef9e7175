import CryptoCoin.Crates.Storage
import CryptoCoin.Library.Latest

/-!
# The height index

`get_by_height` looks up a hash in the index and a block in the cache. Both tables keep
what was written last: after a sequence of calls the index has the hash of the last block
at the height, the cache the last block with the hash (`getByHeight_run`). These are two
blocks when a hash is stored again at another height, and the answer then has the other
height.
-/

namespace CryptoCoin

namespace Crates

namespace Storage

open Latest
open Wire (Bytes)

namespace StorageManager

/-! ### What the tables hold -/

theorem lookup_heightIndex_run (s : StorageManager) (blocks : List StoredBlock)
    (height : UInt64) :
    (Runs.run storeBlock s blocks).heightIndex.lookup height =
      ((latest (fun b : StoredBlock => b.height = height) blocks).map StoredBlock.hash).or
        (s.heightIndex.lookup height) := by
  apply lookup_foldl (I := fun _ => True) (fun _ _ _ => trivial)
    (fun s : StorageManager => s.heightIndex.lookup height) StoredBlock.hash
  · intro s block _
    rw [heightIndex_storeBlock]
    by_cases hheight : block.height = height
    · rw [if_pos hheight, ← hheight, AList.lookup_insert]
    · rw [if_neg hheight, AList.lookup_insert_ne (Ne.symm hheight)]
  · trivial

theorem getByHash_run (s : StorageManager) (blocks : List StoredBlock) (hash : Bytes 32) :
    (Runs.run storeBlock s blocks).getByHash hash =
      (latest (fun b : StoredBlock => b.hash = hash) blocks).or (s.getByHash hash) := by
  have hwrite : ∀ (s : StorageManager) (block : StoredBlock), True →
      (s.storeBlock block).getByHash hash =
        if block.hash = hash then some (id block) else s.getByHash hash := by
    intro s block _
    rw [getByHash_storeBlock]
    exact if_congr eq_comm rfl rfl
  have hrun := lookup_foldl (fun _ _ _ => trivial) (getByHash · hash) id hwrite blocks
    (s := s) trivial
  rwa [Option.map_id] at hrun

/-- The answer for a height is the last block with the hash of the last block at the
height. -/
theorem getByHeight_run (blocks : List StoredBlock) (height : UInt64) :
    (Runs.run storeBlock new blocks).getByHeight height =
      (latest (fun b : StoredBlock => b.height = height) blocks).bind fun b =>
        latest (fun c : StoredBlock => c.hash = b.hash) blocks := by
  rw [getByHeight, lookup_heightIndex_run]
  cases latest (fun b : StoredBlock => b.height = height) blocks with
  | none => rfl
  | some b => exact (getByHash_run new blocks b.hash).trans (Option.or_none)

/-! ### Answers -/

/-- After the calls every answer has the height that was asked for, and there is an answer
for every height at which a block was stored. -/
def AnswersHeights (blocks : List StoredBlock) : Prop :=
  (∀ height b, (Runs.run storeBlock new blocks).getByHeight height = some b →
    b.height = height) ∧
  ∀ b ∈ blocks, ((Runs.run storeBlock new blocks).getByHeight b.height).isSome

theorem isSome_getByHeight_run {blocks : List StoredBlock} {b : StoredBlock} (hb : b ∈ blocks) :
    ((Runs.run storeBlock new blocks).getByHeight b.height).isSome := by
  obtain ⟨last, hlast⟩ :=
    exists_latest (p := fun c : StoredBlock => c.height = b.height) hb rfl
  obtain ⟨cached, hcached⟩ :=
    exists_latest (p := fun c : StoredBlock => c.hash = last.hash) (mem_of_latest hlast) rfl
  rw [getByHeight_run, hlast, Option.bind_some, hcached]
  rfl

/-- The height index answers correctly exactly when the last block with the hash of the last
block at a height has this height too. -/
theorem answersHeights_iff (blocks : List StoredBlock) :
    AnswersHeights blocks ↔
      ∀ b c, latest (fun x : StoredBlock => x.height = b.height) blocks = some b →
        latest (fun x : StoredBlock => x.hash = b.hash) blocks = some c →
        c.height = b.height := by
  constructor
  · rintro ⟨hright, _⟩ b c hlast hcached
    apply hright
    rw [getByHeight_run, hlast, Option.bind_some, hcached]
  · intro h
    refine ⟨?_, fun b hb => isSome_getByHeight_run hb⟩
    intro height c hget
    rw [getByHeight_run] at hget
    obtain ⟨b, hlast, hcached⟩ := Option.bind_eq_some_iff.mp hget
    have hheight := prop_of_latest hlast
    subst hheight
    exact h b c hlast hcached

/-- A block of height 2 with the hash of a block of height 1. -/
theorem reused_hash_answers_wrong :
    (Runs.run storeBlock new [blockOne 0, { blockOne 0 with height := 2 }]).getByHeight 1 =
        some { blockOne 0 with height := 2 } ∧
      ¬ AnswersHeights [blockOne 0, { blockOne 0 with height := 2 }] := by
  have hget : (Runs.run storeBlock new
      [blockOne 0, { blockOne 0 with height := 2 }]).getByHeight 1 =
        some { blockOne 0 with height := 2 } := by decide
  refine ⟨hget, ?_⟩
  rintro ⟨hright, _⟩
  exact absurd (hright 1 _ hget) (by decide)

end StorageManager

end Storage

end Crates

end CryptoCoin
