import CryptoCoin.Crates.StorageThreads
import Mathlib.Data.Fintype.Basic

/-!
# The order of concurrent stores

Calls of `store_block` interleave section by section, and what the storage holds in the
end may depend on the schedule. When distinct blocks have distinct heights and distinct
hashes, the finished calls determine every answer; two blocks that share a height or a hash
are enough for two schedules with different answers, and already for two orders in which the
calls run one after the other (`sameAnswers_iff_apart`).
-/

namespace CryptoCoin

namespace Crates

namespace Storage

open Wire (Bytes)

structure SameAnswers (s s' : StorageManager) : Prop where
  head : s.head = s'.head
  byHash : ∀ hash, s.getByHash hash = s'.getByHash hash
  byHeight : ∀ height, s.getByHeight height = s'.getByHeight height

namespace Threads

variable {ω ρ : Type*}

/-- Distinct blocks have distinct heights and distinct hashes. -/
def Apart (block : ω → StoredBlock) : Prop :=
  ∀ v w, block v ≠ block w →
    (block v).height ≠ (block w).height ∧ (block v).hash ≠ (block w).hash

def Finished (t : Threads ω ρ) : Prop := ∀ w, t.stores w = .finished

/-- Every cached block was written by a store, under its own hash. -/
def CachedBy (block : ω → StoredBlock) (t : Threads ω ρ) : Prop :=
  ∀ hash b, t.storage.getByHash hash = some b → b.hash = hash ∧ ∃ w, block w = b

variable {block : ω → StoredBlock} {query : ρ → UInt64} {t : Threads ω ρ}

/-! ### Answers of finished stores -/

section Answers

theorem eq_of_height_eq (hapart : Apart block) {v w : ω}
    (h : (block v).height = (block w).height) : block v = block w := by
  by_contra hne
  exact (hapart v w hne).1 h

theorem eq_of_hash_eq (hapart : Apart block) {v w : ω}
    (h : (block v).hash = (block w).hash) : block v = block w := by
  by_contra hne
  exact (hapart v w hne).2 h

theorem head_eq_some_iff (hapart : Apart block) (h : Consistent block t) (hfinished : t.Finished)
    {b : StoredBlock} :
    t.storage.head = some b ↔ ∃ w, block w = b ∧ ∀ u, (block u).height ≤ b.height := by
  have hmax := h.head
  cases hhead : t.storage.head with
  | none =>
      rw [hhead] at hmax
      refine iff_of_false (by simp) ?_
      rintro ⟨w, _, _⟩
      exact Set.eq_empty_iff_forall_notMem.mp hmax w (hfinished w)
  | some c =>
      rw [hhead] at hmax
      obtain ⟨⟨v, _, rfl⟩, hle⟩ := hmax
      constructor
      · intro heq
        obtain rfl := Option.some.inj heq
        exact ⟨v, rfl, fun u => hle u (hfinished u)⟩
      · rintro ⟨w, rfl, hhighest⟩
        have heq := UInt64.le_antisymm (hhighest v) (hle w (hfinished w))
        rw [eq_of_height_eq hapart heq]

theorem getByHash_eq_some_iff (hapart : Apart block) (h : Consistent block t)
    (hcached : CachedBy block t) (hfinished : t.Finished) {hash : Bytes 32} {b : StoredBlock} :
    t.storage.getByHash hash = some b ↔ ∃ w, block w = b ∧ b.hash = hash := by
  constructor
  · intro hget
    obtain ⟨hhash, w, hw⟩ := hcached hash b hget
    exact ⟨w, hw, hhash⟩
  · rintro ⟨w, rfl, rfl⟩
    have hsome : (t.storage.getByHash (block w).hash).isSome :=
      (h.cache _).mpr ⟨w, by rw [Set.mem_ofPred_eq, hfinished w]; rfl, rfl⟩
    obtain ⟨c, hget⟩ := Option.isSome_iff_exists.mp hsome
    obtain ⟨hhash, v, rfl⟩ := hcached _ c hget
    rw [hget, eq_of_hash_eq hapart hhash]

theorem getByHeight_eq_some_iff (hapart : Apart block) (h : Consistent block t)
    (hcached : CachedBy block t) (hfinished : t.Finished) {height : UInt64} {b : StoredBlock} :
    t.storage.getByHeight height = some b ↔ ∃ w, block w = b ∧ b.height = height := by
  -- The index has the hash of a store at the height, and the cache the block of a store with
  -- this hash; both stores have the same block.
  have hanswer : ∀ {hash}, t.storage.heightIndex.lookup height = some hash →
      ∃ w, t.storage.getByHeight height = some (block w) ∧ (block w).height = height := by
    intro hash hlookup
    obtain ⟨w, _, hheight, rfl⟩ := h.index.1 _ _ hlookup
    refine ⟨w, ?_, hheight⟩
    rw [StorageManager.getByHeight, hlookup]
    exact (getByHash_eq_some_iff hapart h hcached hfinished).mpr ⟨w, rfl, rfl⟩
  constructor
  · intro hget
    obtain ⟨hash, hlookup, _⟩ := Option.bind_eq_some_iff.mp hget
    obtain ⟨w, hw, hheight⟩ := hanswer hlookup
    rw [hget] at hw
    obtain rfl := Option.some.inj hw
    exact ⟨w, rfl, hheight⟩
  · rintro ⟨v, rfl, rfl⟩
    have hsome := h.index.2 v (by rw [Set.mem_ofPred_eq, hfinished v]; rfl)
    obtain ⟨hash, hlookup⟩ := Option.isSome_iff_exists.mp hsome
    obtain ⟨w, hw, hheight⟩ := hanswer hlookup
    rw [hw, eq_of_height_eq hapart hheight]

theorem sameAnswers_of_apart (hapart : Apart block) {first second : Threads ω ρ}
    (hfirst : first.Finished) (hsecond : second.Finished)
    (hconsistent : Consistent block first ∧ Consistent block second)
    (hcached : CachedBy block first ∧ CachedBy block second) :
    SameAnswers first.storage second.storage where
  head := Option.ext fun b => by
    rw [head_eq_some_iff hapart hconsistent.1 hfirst, head_eq_some_iff hapart hconsistent.2 hsecond]
  byHash := fun hash => Option.ext fun b => by
    rw [getByHash_eq_some_iff hapart hconsistent.1 hcached.1 hfirst,
      getByHash_eq_some_iff hapart hconsistent.2 hcached.2 hsecond]
  byHeight := fun height => Option.ext fun b => by
    rw [getByHeight_eq_some_iff hapart hconsistent.1 hcached.1 hfirst,
      getByHeight_eq_some_iff hapart hconsistent.2 hcached.2 hsecond]

end Answers

variable [DecidableEq ω] [DecidableEq ρ]

/-! ### The cache -/

theorem cachedBy_step (h : CachedBy block t) (turn : Turn ω ρ) :
    CachedBy block (step block query t turn) := by
  cases turn with
  | get r => rwa [CachedBy, (step_get block query t r).1]
  | store w =>
      cases hphase : t.stores w with
      | waiting =>
          simp only [step, hphase]
          exact h
      | indexed =>
          simp only [step, hphase]
          intro hash b hget
          by_cases hhash : hash = (block w).hash
          · subst hhash
            have heq : some (block w) = some b := (AList.lookup_insert _).symm.trans hget
            obtain rfl := Option.some.inj heq
            exact ⟨rfl, w, rfl⟩
          · exact h hash b ((AList.lookup_insert_ne hhash).symm.trans hget)
      | cached =>
          simp only [step, hphase]
          intro hash b hget
          rw [StorageManager.getByHash, (maps_writeHead t.storage (block w)).2] at hget
          exact h hash b hget
      | finished =>
          simp only [step, hphase]
          exact h

theorem cachedBy_run (schedule : List (Turn ω ρ)) :
    CachedBy block (Runs.run (step block query) start schedule) := by
  apply Runs.invariant (P := CachedBy block)
  · intro hash b hget
    cases hget
  · intro x _ h
    exact cachedBy_step h x.2

/-! ### One store after the other -/

/-- The schedule in which the stores run one after the other. -/
def oneByOne (order : List ω) : List (Turn ω ρ) :=
  order.flatMap fun w => [.store w, .store w, .store w]

theorem stores_run_store (block : ω → StoredBlock) (query : ρ → UInt64) {w : ω}
    (h : t.stores w = .waiting) :
    (Runs.run (step block query) t [.store w, .store w, .store w]).stores =
      Function.update t.stores w .finished := by
  simp [step, h]

theorem run_oneByOne (block : ω → StoredBlock) (query : ρ → UInt64) {order : List ω}
    (hnodup : order.Nodup) (hwaiting : ∀ w ∈ order, t.stores w = .waiting) :
    (Runs.run (step block query) t (oneByOne order)).storage =
        Runs.run StorageManager.storeBlock t.storage (order.map block) ∧
      ∀ w ∈ order, (Runs.run (step block query) t (oneByOne order)).stores w = .finished := by
  induction order generalizing t with
  | nil => exact ⟨rfl, fun w hw => absurd hw List.not_mem_nil⟩
  | cons v order ih =>
      obtain ⟨hv, hnodup⟩ := List.nodup_cons.mp hnodup
      have hfirst := hwaiting v List.mem_cons_self
      have hstorage : (Runs.run (step block query) t [.store v, .store v, .store v]).storage =
          t.storage.storeBlock (block v) := storage_run_store hfirst
      have hstores := stores_run_store block query hfirst
      rw [oneByOne, List.flatMap_cons, Runs.run_append]
      set after := Runs.run (step block query) t [.store v, .store v, .store v]
      have hrest : ∀ w ∈ order, after.stores w = .waiting := by
        intro w hw
        have hne : w ≠ v := by
          rintro rfl
          exact hv hw
        rw [hstores, Function.update_of_ne hne]
        exact hwaiting w (List.mem_cons_of_mem v hw)
      obtain ⟨hrun, hfinished⟩ := ih hnodup hrest
      refine ⟨?_, ?_⟩
      · rw [List.map_cons, Runs.run_cons, ← hstorage]
        exact hrun
      · intro w hw
        rcases List.mem_cons.mp hw with rfl | hw
        · refine Runs.invariant (P := fun t : Threads ω ρ => t.stores w = .finished) ?_ ?_
          · rw [hstores, Function.update_self]
          · intro x _ h
            exact stores_step_finished h x.2
        · exact hfinished w hw

theorem exists_last [Fintype ω] (block : ω → StoredBlock) (query : ρ → UInt64) (w : ω) :
    ∃ schedule, (Runs.run (step block query) start schedule).Finished ∧
      ∃ s, (Runs.run (step block query) start schedule).storage =
        StorageManager.storeBlock s (block w) := by
  have hnodup : ((Finset.univ.erase w).toList ++ [w]).Nodup :=
    List.nodup_append.mpr ⟨Finset.nodup_toList _, List.nodup_singleton w, by simp⟩
  obtain ⟨hstorage, hfinished⟩ := run_oneByOne block query (t := start) hnodup fun _ _ => rfl
  refine ⟨oneByOne ((Finset.univ.erase w).toList ++ [w]), ?_, ?_⟩
  · intro v
    apply hfinished
    by_cases hv : v = w
    · simp [hv]
    · simp [hv]
  · rw [hstorage, List.map_append, Runs.run_append]
    exact ⟨_, rfl⟩

/-! ### Schedules -/

/-- All schedules that finish the stores lead to the same answers exactly when distinct blocks
have distinct heights and distinct hashes. -/
theorem sameAnswers_iff_apart [Fintype ω] (block : ω → StoredBlock) (query : ρ → UInt64) :
    (∀ schedule schedule', (Runs.run (step block query) start schedule).Finished →
        (Runs.run (step block query) start schedule').Finished →
        SameAnswers (Runs.run (step block query) start schedule).storage
          (Runs.run (step block query) start schedule').storage) ↔
      Apart block := by
  constructor
  · intro hsame v w hne
    obtain ⟨first, hfirst, s, hs⟩ := exists_last block query v
    obtain ⟨second, hsecond, s', hs'⟩ := exists_last block query w
    have hanswers := hsame first second hfirst hsecond
    rw [hs, hs'] at hanswers
    refine ⟨?_, ?_⟩
    · intro hheight
      have hget := hanswers.byHeight (block v).height
      rw [StorageManager.getByHeight_storeBlock_self, hheight,
        StorageManager.getByHeight_storeBlock_self] at hget
      exact hne (Option.some.inj hget)
    · intro hhash
      have hget := hanswers.byHash (block v).hash
      rw [StorageManager.getByHash_storeBlock, if_pos rfl, StorageManager.getByHash_storeBlock,
        if_pos hhash] at hget
      exact hne (Option.some.inj hget)
  · intro hapart schedule schedule' hfirst hsecond
    exact sameAnswers_of_apart hapart hfirst hsecond
      ⟨consistent_run schedule, consistent_run schedule'⟩
      ⟨cachedBy_run schedule, cachedBy_run schedule'⟩

end Threads

end Storage

end Crates

end CryptoCoin
