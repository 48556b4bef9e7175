import CryptoCoin.Crates.Wire
import CryptoCoin.Library.Runs
import Mathlib.Data.List.AList

/-!
# Block storage

The in-memory part of `StorageManager` of the crate `storage`: the head, the index from
heights to hashes and the cache from hashes to blocks. `storeBlock` writes them in three
sections, each under a lock of its own. The index and the cache are written for every
block, the head only for a block that is higher.

So a block at the height of the head that is another block, or a lower block with the
hash of the head, takes the place of the head in the index or in the cache while the
head stays. `head_indexed_iff` says that head and index agree along a sequence of calls
exactly when no call stores such a block.
-/

namespace CryptoCoin

namespace Crates

namespace Storage

open Wire (Bytes)

structure StoredBlock where
  height : UInt64
  hash : Bytes 32
  data : List UInt8
  timestamp : Int64
  deriving DecidableEq

structure StorageManager where
  head : Option StoredBlock
  heightIndex : AList fun _ : UInt64 => Bytes 32
  blockCache : AList fun _ : Bytes 32 => StoredBlock

namespace StorageManager

def new : StorageManager := ⟨none, ∅, ∅⟩

/-! ### The sections of `store_block` -/

def writeHeightIndex (s : StorageManager) (block : StoredBlock) : StorageManager :=
  { s with heightIndex := s.heightIndex.insert block.height block.hash }

def writeBlockCache (s : StorageManager) (block : StoredBlock) : StorageManager :=
  { s with blockCache := s.blockCache.insert block.hash block }

def writeHead (s : StorageManager) (block : StoredBlock) : StorageManager :=
  match s.head with
  | some current => if current.height < block.height then { s with head := some block } else s
  | none => { s with head := some block }

def storeBlock (s : StorageManager) (block : StoredBlock) : StorageManager :=
  ((s.writeHeightIndex block).writeBlockCache block).writeHead block

/-! ### Queries -/

def getByHash (s : StorageManager) (hash : Bytes 32) : Option StoredBlock :=
  s.blockCache.lookup hash

def getByHeight (s : StorageManager) (height : UInt64) : Option StoredBlock := do
  let hash ← s.heightIndex.lookup height
  s.getByHash hash

def height (s : StorageManager) : UInt64 := (s.head.map StoredBlock.height).getD 0

/-! ### One call -/

variable {s : StorageManager} {block : StoredBlock}

theorem heightIndex_storeBlock :
    (s.storeBlock block).heightIndex = s.heightIndex.insert block.height block.hash := by
  simp only [storeBlock, writeHead]
  split
  · split
    · rfl
    · rfl
  · rfl

theorem blockCache_storeBlock :
    (s.storeBlock block).blockCache = s.blockCache.insert block.hash block := by
  simp only [storeBlock, writeHead]
  split
  · split
    · rfl
    · rfl
  · rfl

theorem head_storeBlock :
    (s.storeBlock block).head =
      match s.head with
      | some current => if current.height < block.height then some block else some current
      | none => some block := by
  cases hhead : s.head with
  | none => simp [storeBlock, writeHead, writeBlockCache, writeHeightIndex, hhead]
  | some current =>
      by_cases hlt : current.height < block.height
      · simp [storeBlock, writeHead, writeBlockCache, writeHeightIndex, hhead, hlt]
      · simp [storeBlock, writeHead, writeBlockCache, writeHeightIndex, hhead, hlt]

theorem getByHash_storeBlock (hash : Bytes 32) :
    (s.storeBlock block).getByHash hash =
      if hash = block.hash then some block else s.getByHash hash := by
  rw [getByHash, blockCache_storeBlock]
  by_cases hhash : hash = block.hash
  · rw [if_pos hhash, hhash, AList.lookup_insert]
  · rw [if_neg hhash, AList.lookup_insert_ne hhash]
    rfl

theorem getByHeight_storeBlock_self :
    (s.storeBlock block).getByHeight block.height = some block := by
  rw [getByHeight, heightIndex_storeBlock, AList.lookup_insert]
  exact (getByHash_storeBlock block.hash).trans (if_pos rfl)

/-- At another height the index is as before; the cache may have changed. -/
theorem getByHeight_storeBlock_of_ne {height : UInt64} (h : height ≠ block.height) :
    (s.storeBlock block).getByHeight height =
      (s.heightIndex.lookup height).bind fun hash =>
        if hash = block.hash then some block else s.getByHash hash := by
  rw [getByHeight, heightIndex_storeBlock, AList.lookup_insert_ne h]
  exact congrArg _ (funext fun hash => getByHash_storeBlock hash)

/-! ### Head and index -/

/-- The head is what the index has at its height. -/
def HeadIndexed (s : StorageManager) : Prop :=
  ∀ b, s.head = some b → s.getByHeight s.height = some b

/-- Every block is cached under its own hash. -/
def CacheKeyed (s : StorageManager) : Prop := ∀ hash b, s.getByHash hash = some b → b.hash = hash

/-- The block becomes the head, is the head, or is lower and has another hash. -/
def KeepsHead (s : StorageManager) (block : StoredBlock) : Prop :=
  ∀ b, s.head = some b →
    b.height < block.height ∨ block = b ∨ block.height < b.height ∧ block.hash ≠ b.hash

theorem cacheKeyed_storeBlock (h : s.CacheKeyed) : (s.storeBlock block).CacheKeyed := by
  intro hash b hget
  rw [getByHash_storeBlock] at hget
  by_cases hhash : hash = block.hash
  · rw [if_pos hhash] at hget
    cases hget
    exact hhash.symm
  · rw [if_neg hhash] at hget
    exact h hash b hget

theorem height_eq_of_head {b : StoredBlock} (h : s.head = some b) : s.height = b.height := by
  rw [height, h]
  rfl

theorem lookup_heightIndex_of_headIndexed (hindexed : s.HeadIndexed) (hkeyed : s.CacheKeyed)
    {b : StoredBlock} (hhead : s.head = some b) :
    s.heightIndex.lookup b.height = some b.hash := by
  have hget := hindexed b hhead
  rw [height_eq_of_head hhead, getByHeight] at hget
  obtain ⟨hash, hlookup, hcached⟩ := Option.bind_eq_some_iff.mp hget
  rw [hlookup, hkeyed hash b hcached]

theorem headIndexed_storeBlock_of_head (hhead : (s.storeBlock block).head = some block) :
    (s.storeBlock block).HeadIndexed := by
  intro b hb
  rw [height_eq_of_head hhead, getByHeight_storeBlock_self, ← hhead, hb]

theorem headIndexed_storeBlock_iff_of_le (hindexed : s.HeadIndexed) (hkeyed : s.CacheKeyed)
    {b : StoredBlock} (hhead : s.head = some b) (hle : ¬ b.height < block.height) :
    (s.storeBlock block).HeadIndexed ↔
      block = b ∨ block.height < b.height ∧ block.hash ≠ b.hash := by
  have hstays : (s.storeBlock block).head = some b := by
    rw [head_storeBlock, hhead]
    exact if_neg hle
  have hiff : (s.storeBlock block).HeadIndexed ↔
      (s.storeBlock block).getByHeight b.height = some b := by
    simp only [HeadIndexed, height_eq_of_head hstays, hstays, Option.some.injEq, forall_eq']
  rw [hiff]
  by_cases hheight : b.height = block.height
  · rw [hheight, getByHeight_storeBlock_self, Option.some.injEq]
    simp
  · have hlower : block.height < b.height :=
      UInt64.lt_of_le_of_ne (UInt64.not_lt.mp hle) (Ne.symm hheight)
    have hne : block ≠ b := by
      rintro rfl
      exact hheight rfl
    have hcached : s.getByHash b.hash = some b := by
      have hget := hindexed b hhead
      rwa [height_eq_of_head hhead, getByHeight,
        lookup_heightIndex_of_headIndexed hindexed hkeyed hhead] at hget
    rw [getByHeight_storeBlock_of_ne hheight,
      lookup_heightIndex_of_headIndexed hindexed hkeyed hhead, Option.bind_some]
    by_cases hhash : b.hash = block.hash
    · simp [hhash, hne]
    · simp [hhash, hcached, hlower, Ne.symm hhash]

theorem headIndexed_storeBlock_iff (hindexed : s.HeadIndexed) (hkeyed : s.CacheKeyed) :
    (s.storeBlock block).HeadIndexed ↔ s.KeepsHead block := by
  cases hhead : s.head with
  | none =>
      have hnew : (s.storeBlock block).head = some block := by rw [head_storeBlock, hhead]
      simp only [KeepsHead, hhead, headIndexed_storeBlock_of_head hnew, reduceCtorEq,
        false_implies, implies_true]
  | some b =>
      simp only [KeepsHead, hhead, Option.some.injEq, forall_eq']
      by_cases hlt : b.height < block.height
      · have hnew : (s.storeBlock block).head = some block := by
          rw [head_storeBlock, hhead]
          exact if_pos hlt
        exact iff_of_true (headIndexed_storeBlock_of_head hnew) (Or.inl hlt)
      · rw [headIndexed_storeBlock_iff_of_le hindexed hkeyed hhead hlt, or_iff_right hlt]

/-! ### Sequences of calls -/

theorem cacheKeyed_run (blocks : List StoredBlock) :
    (Runs.run storeBlock new blocks).CacheKeyed := by
  apply Runs.invariant (P := CacheKeyed)
  · intro hash b hget
    cases hget
  · intro x _ h
    exact cacheKeyed_storeBlock h

/-- Head and index agree after every call of a sequence exactly when every block
becomes the head, is the head, or is lower than the head and has another hash. -/
theorem head_indexed_iff (blocks : List StoredBlock) :
    Runs.Always storeBlock HeadIndexed new blocks ↔
      ∀ x ∈ Runs.trace storeBlock new blocks, x.1.KeepsHead x.2 := by
  apply Runs.always_iff
  · intro b hb
    cases hb
  · intro x hx hindexed
    obtain ⟨pre, post, _, hbefore⟩ := Runs.mem_trace_iff.mp hx
    have hkeyed : x.1.CacheKeyed := hbefore ▸ cacheKeyed_run pre
    exact headIndexed_storeBlock_iff hindexed hkeyed

def blockOne (n : UInt8) : StoredBlock := ⟨1, Bytes.replicate 32 n, [], 0⟩

/-- Of two blocks at one height the first stays the head and the second is in the
index. -/
theorem blockOne_not_indexed :
    (Runs.run storeBlock new [blockOne 0, blockOne 1]).head = some (blockOne 0) ∧
      (Runs.run storeBlock new [blockOne 0, blockOne 1]).getByHeight 1 = some (blockOne 1) ∧
      ¬ (Runs.run storeBlock new [blockOne 0, blockOne 1]).HeadIndexed := by
  have hhead : (Runs.run storeBlock new [blockOne 0, blockOne 1]).head = some (blockOne 0) := by
    decide
  have hindex : (Runs.run storeBlock new [blockOne 0, blockOne 1]).getByHeight 1 =
      some (blockOne 1) := by decide
  refine ⟨hhead, hindex, ?_⟩
  intro h
  have hget := h (blockOne 0) hhead
  rw [height_eq_of_head hhead] at hget
  exact absurd (hget.symm.trans hindex) (by decide)

end StorageManager

end Storage

end Crates

end CryptoCoin
