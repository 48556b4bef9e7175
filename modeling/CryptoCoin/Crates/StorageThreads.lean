import CryptoCoin.Crates.Storage
import Mathlib.Data.Set.Insert
import Mathlib.Logic.Function.Basic

/-!
# Concurrent use of the storage

Any number of calls of `store_block` and `get_by_height` run at the same time. A call
acquires one lock after the other and may be suspended between two of them: a store
writes the index, the cache and the head, a query reads the index and then the cache. A
schedule is a list of turns, and in its turn a call performs its next section.

At any time the index holds the heights of the stores that have written it, with the
hash of one of them for each; the cache holds the hashes of the stores that have written
the cache; the head is a highest block among the stores that have finished
(`Consistent`). So nothing is lost once all stores have finished
(`kept_of_quiet`). In between, the hash at a height may be that of a store that has
not come to the cache yet, and a query that reads both then finds nothing, even for a
height that was found before (`get_returns_iff`).
-/

namespace CryptoCoin

namespace Crates

namespace Storage

open Wire (Bytes)

/-! ### Calls and turns -/

/-- How far a call of `store_block` has come. -/
inductive StorePhase where
  | waiting
  | indexed
  | cached
  | finished
  deriving DecidableEq

namespace StorePhase

def hasIndexed : StorePhase → Bool
  | .waiting => false
  | _ => true

def hasCached : StorePhase → Bool
  | .waiting | .indexed => false
  | .cached | .finished => true

end StorePhase

/-- How far a call of `get_by_height` has come. It holds a hash between its two reads. -/
inductive GetPhase where
  | waiting
  | holds (hash : Bytes 32)
  | returned (result : Option StoredBlock)
  deriving DecidableEq

structure Threads (ω ρ : Type*) where
  storage : StorageManager
  stores : ω → StorePhase
  gets : ρ → GetPhase

inductive Turn (ω ρ : Type*) where
  | store (w : ω)
  | get (r : ρ)

namespace Threads

variable {ω ρ : Type*}

def start : Threads ω ρ := ⟨StorageManager.new, fun _ => .waiting, fun _ => .waiting⟩

variable [DecidableEq ω] [DecidableEq ρ] (block : ω → StoredBlock) (query : ρ → UInt64)

def step (t : Threads ω ρ) : Turn ω ρ → Threads ω ρ
  | .store w =>
      match t.stores w with
      | .waiting =>
          { t with
            storage := t.storage.writeHeightIndex (block w)
            stores := Function.update t.stores w .indexed }
      | .indexed =>
          { t with
            storage := t.storage.writeBlockCache (block w)
            stores := Function.update t.stores w .cached }
      | .cached =>
          { t with
            storage := t.storage.writeHead (block w)
            stores := Function.update t.stores w .finished }
      | .finished => t
  | .get r =>
      match t.gets r with
      | .waiting =>
          match t.storage.heightIndex.lookup (query r) with
          | none => { t with gets := Function.update t.gets r (.returned none) }
          | some hash => { t with gets := Function.update t.gets r (.holds hash) }
      | .holds hash =>
          { t with gets := Function.update t.gets r (.returned (t.storage.getByHash hash)) }
      | .returned _ => t

variable {block query} {t : Threads ω ρ}

/-- An undisturbed call of `store_block` is `storeBlock`. -/
theorem storage_run_store {w : ω} (h : t.stores w = .waiting) :
    (Runs.run (step block query) t [.store w, .store w, .store w]).storage =
      t.storage.storeBlock (block w) := by
  simp only [Runs.run_cons, Runs.run_nil, step, h, Function.update_self]
  rfl

theorem gets_run_get {r : ρ} (h : t.gets r = .waiting) :
    (Runs.run (step block query) t [.get r, .get r]).gets r =
      .returned (t.storage.getByHeight (query r)) := by
  cases hlookup : t.storage.heightIndex.lookup (query r) with
  | none => simp [step, h, hlookup, StorageManager.getByHeight]
  | some hash => simp [step, h, hlookup, StorageManager.getByHeight]

end Threads

/-! ### What the maps hold -/

section Maps

variable {ω : Type*} (block : ω → StoredBlock)

/-- The index holds the heights of the stores in `S`, each with the hash of one of them. -/
def IndexOf (S : Set ω) (index : AList fun _ : UInt64 => Bytes 32) : Prop :=
  (∀ height hash, index.lookup height = some hash →
      ∃ w ∈ S, (block w).height = height ∧ (block w).hash = hash) ∧
    ∀ w ∈ S, (index.lookup (block w).height).isSome

/-- The cache holds the hashes of the stores in `S`. -/
def CacheOf (S : Set ω) (cache : AList fun _ : Bytes 32 => StoredBlock) : Prop :=
  ∀ hash, (cache.lookup hash).isSome ↔ ∃ w ∈ S, (block w).hash = hash

/-- The head is a highest block among the stores in `S`. -/
def HeadOf (S : Set ω) : Option StoredBlock → Prop
  | none => S = ∅
  | some b => (∃ w ∈ S, block w = b) ∧ ∀ w ∈ S, (block w).height ≤ b.height

variable {block} {S : Set ω}

theorem IndexOf.insert {index : AList fun _ : UInt64 => Bytes 32} (h : IndexOf block S index)
    (w : ω) :
    IndexOf block (insert w S) (index.insert (block w).height (block w).hash) := by
  constructor
  · intro height hash hlookup
    by_cases hheight : height = (block w).height
    · rw [hheight, AList.lookup_insert, Option.some_inj] at hlookup
      exact ⟨w, Set.mem_insert w S, hheight.symm, hlookup⟩
    · rw [AList.lookup_insert_ne hheight] at hlookup
      obtain ⟨v, hv, hsame⟩ := h.1 height hash hlookup
      exact ⟨v, Set.mem_insert_of_mem w hv, hsame⟩
  · intro v hv
    by_cases hheight : (block v).height = (block w).height
    · rw [hheight, AList.lookup_insert]
      rfl
    · rw [AList.lookup_insert_ne hheight]
      rcases hv with rfl | hv
      · exact absurd rfl hheight
      · exact h.2 v hv

theorem CacheOf.insert {cache : AList fun _ : Bytes 32 => StoredBlock}
    (h : CacheOf block S cache) (w : ω) :
    CacheOf block (insert w S) (cache.insert (block w).hash (block w)) := by
  intro hash
  by_cases hhash : hash = (block w).hash
  · rw [hhash, AList.lookup_insert]
    exact iff_of_true rfl ⟨w, Set.mem_insert w S, rfl⟩
  · rw [AList.lookup_insert_ne hhash, h hash]
    constructor
    · rintro ⟨v, hv, hsame⟩
      exact ⟨v, Set.mem_insert_of_mem w hv, hsame⟩
    · rintro ⟨v, rfl | hv, hsame⟩
      · exact absurd hsame.symm hhash
      · exact ⟨v, hv, hsame⟩

theorem HeadOf.insert {s : StorageManager} (h : HeadOf block S s.head) (w : ω) :
    HeadOf block (insert w S) (s.writeHead (block w)).head := by
  cases hhead : s.head with
  | none =>
      rw [hhead] at h
      have hempty : S = ∅ := h
      have hnew : (s.writeHead (block w)).head = some (block w) := by
        simp only [StorageManager.writeHead, hhead]
      rw [hnew, hempty]
      refine ⟨⟨w, Set.mem_insert w ∅, rfl⟩, ?_⟩
      rintro v (rfl | hv)
      · exact UInt64.le_refl _
      · exact absurd hv (Set.notMem_empty v)
  | some current =>
      rw [hhead] at h
      obtain ⟨⟨u, hu, hcurrent⟩, hmax⟩ := h
      by_cases hlt : current.height < (block w).height
      · have hnew : (s.writeHead (block w)).head = some (block w) := by
          simp only [StorageManager.writeHead, hhead, if_pos hlt]
        rw [hnew]
        refine ⟨⟨w, Set.mem_insert w S, rfl⟩, ?_⟩
        rintro v (rfl | hv)
        · exact UInt64.le_refl _
        · exact UInt64.le_trans (hmax v hv) (UInt64.le_of_lt hlt)
      · have hstays : (s.writeHead (block w)).head = some current := by
          simp only [StorageManager.writeHead, hhead, if_neg hlt]
        rw [hstays]
        refine ⟨⟨u, Set.mem_insert_of_mem w hu, hcurrent⟩, ?_⟩
        rintro v (rfl | hv)
        · exact UInt64.not_lt.mp hlt
        · exact hmax v hv

end Maps

theorem maps_writeHead (s : StorageManager) (b : StoredBlock) :
    (s.writeHead b).heightIndex = s.heightIndex ∧ (s.writeHead b).blockCache = s.blockCache := by
  simp only [StorageManager.writeHead]
  split
  · split
    · exact ⟨rfl, rfl⟩
    · exact ⟨rfl, rfl⟩
  · exact ⟨rfl, rfl⟩

/-! ### The invariant -/

namespace Threads

section Phases

variable {ω : Type*} [DecidableEq ω] {p : StorePhase → Prop} {stores : ω → StorePhase} {w : ω}
  {phase : StorePhase}

theorem setOf_update_insert (h : p phase) :
    {v | p (Function.update stores w phase v)} = insert w {v | p (stores v)} := by
  ext v
  by_cases hv : v = w
  · simp [hv, h]
  · simp [hv]

theorem setOf_update_eq (h : p phase ↔ p (stores w)) :
    {v | p (Function.update stores w phase v)} = {v | p (stores v)} := by
  ext v
  by_cases hv : v = w
  · simp [hv, h]
  · simp [hv]

end Phases

variable {ω ρ : Type*}

structure Consistent (block : ω → StoredBlock) (t : Threads ω ρ) : Prop where
  index : IndexOf block {w | (t.stores w).hasIndexed} t.storage.heightIndex
  cache : CacheOf block {w | (t.stores w).hasCached} t.storage.blockCache
  head : HeadOf block {w | t.stores w = .finished} t.storage.head

variable {block : ω → StoredBlock} {query : ρ → UInt64}

theorem consistent_start : Consistent block (start : Threads ω ρ) where
  index := ⟨fun _ _ hlookup => (Option.some_ne_none _ hlookup.symm).elim,
    fun _ hw => (Bool.false_ne_true hw).elim⟩
  cache := by
    intro hash
    refine iff_of_false Bool.false_ne_true ?_
    rintro ⟨w, hw, _⟩
    exact Bool.false_ne_true hw
  head := Set.eq_empty_of_forall_notMem fun _ hw => StorePhase.noConfusion hw

variable [DecidableEq ω] [DecidableEq ρ] {t : Threads ω ρ}

theorem step_get (block : ω → StoredBlock) (query : ρ → UInt64) (t : Threads ω ρ) (r : ρ) :
    (step block query t (.get r)).storage = t.storage ∧
      (step block query t (.get r)).stores = t.stores := by
  simp only [step]
  split
  · split
    · exact ⟨rfl, rfl⟩
    · exact ⟨rfl, rfl⟩
  · exact ⟨rfl, rfl⟩
  · exact ⟨rfl, rfl⟩

theorem consistent_step_store (h : Consistent block t) (w : ω) :
    Consistent block (step block query t (.store w)) := by
  obtain ⟨hindex, hcache, hhead⟩ := h
  cases hphase : t.stores w with
  | waiting =>
      simp only [step, hphase]
      constructor
      · rw [setOf_update_insert (p := fun phase => phase.hasIndexed = true) rfl]
        exact hindex.insert w
      · rwa [setOf_update_eq (p := fun phase => phase.hasCached = true) (by rw [hphase]; rfl)]
      · rwa [setOf_update_eq (p := fun phase => phase = .finished) (by rw [hphase]; decide)]
  | indexed =>
      simp only [step, hphase]
      constructor
      · rwa [setOf_update_eq (p := fun phase => phase.hasIndexed = true) (by rw [hphase]; rfl)]
      · rw [setOf_update_insert (p := fun phase => phase.hasCached = true) rfl]
        exact hcache.insert w
      · rwa [setOf_update_eq (p := fun phase => phase = .finished) (by rw [hphase]; decide)]
  | cached =>
      simp only [step, hphase]
      obtain ⟨hkeepIndex, hkeepCache⟩ := maps_writeHead t.storage (block w)
      constructor
      · rwa [hkeepIndex,
          setOf_update_eq (p := fun phase => phase.hasIndexed = true) (by rw [hphase]; rfl)]
      · rwa [hkeepCache,
          setOf_update_eq (p := fun phase => phase.hasCached = true) (by rw [hphase]; rfl)]
      · rw [setOf_update_insert (p := fun phase => phase = .finished) rfl]
        exact hhead.insert w
  | finished =>
      simp only [step, hphase]
      exact ⟨hindex, hcache, hhead⟩

theorem consistent_step (h : Consistent block t) (turn : Turn ω ρ) :
    Consistent block (step block query t turn) := by
  cases turn with
  | store w => exact consistent_step_store h w
  | get r =>
      obtain ⟨hstorage, hstores⟩ := step_get block query t r
      obtain ⟨hindex, hcache, hhead⟩ := h
      constructor
      · rwa [hstorage, hstores]
      · rwa [hstorage, hstores]
      · rwa [hstorage, hstores]

theorem consistent_run (schedule : List (Turn ω ρ)) :
    Consistent block (Runs.run (step block query) start schedule) := by
  apply Runs.invariant (P := Consistent block) consistent_start
  intro x _ h
  exact consistent_step h x.2

/-! ### Stores -/

def Quiet (t : Threads ω ρ) : Prop := ∀ w, t.stores w = .waiting ∨ t.stores w = .finished

/-- The head is a highest block of the finished stores, and each of them is found by its
hash and by its height. -/
def Kept (block : ω → StoredBlock) (t : Threads ω ρ) : Prop :=
  ∀ w, t.stores w = .finished →
    (∃ v, t.stores v = .finished ∧ t.storage.head = some (block v) ∧
        ∀ u, t.stores u = .finished → (block u).height ≤ (block v).height) ∧
      (t.storage.getByHash (block w).hash).isSome ∧
      (t.storage.getByHeight (block w).height).isSome

omit [DecidableEq ω] [DecidableEq ρ] in
theorem Consistent.kept (h : Consistent block t) (hquiet : t.Quiet) : t.Kept block := by
  intro w hw
  have hcached : ∀ v, (t.stores v).hasIndexed → (t.storage.getByHash (block v).hash).isSome := by
    intro v hv
    rcases hquiet v with hphase | hphase
    · rw [hphase] at hv
      cases hv
    · exact (h.cache _).mpr ⟨v, by rw [Set.mem_ofPred_eq, hphase]; rfl, rfl⟩
  have hindexed : (t.stores w).hasIndexed := by rw [hw]; rfl
  refine ⟨?_, hcached w hindexed, ?_⟩
  · have hmax := h.head
    cases hhead : t.storage.head with
    | none =>
        rw [hhead] at hmax
        exact absurd hw (Set.eq_empty_iff_forall_notMem.mp hmax w)
    | some b =>
        rw [hhead] at hmax
        obtain ⟨⟨v, hv, rfl⟩, hle⟩ := hmax
        exact ⟨v, hv, rfl, hle⟩
  · -- the hash in the index may be that of another store at the same height
    obtain ⟨hash, hlookup⟩ := Option.isSome_iff_exists.mp (h.index.2 w hindexed)
    obtain ⟨v, hv, _, rfl⟩ := h.index.1 _ _ hlookup
    rw [StorageManager.getByHeight, hlookup]
    exact hcached v hv

/-- Whatever the order in which the stores have taken their turns, nothing is lost when none
of them is in progress. -/
theorem kept_of_quiet (block : ω → StoredBlock) (query : ρ → UInt64)
    (schedule : List (Turn ω ρ))
    (hquiet : (Runs.run (step block query) start schedule).Quiet) :
    (Runs.run (step block query) start schedule).Kept block :=
  (consistent_run schedule).kept hquiet

/-- Two blocks of height 1, each stored by one call. -/
def blocksOne (w : Bool) : StoredBlock := StorageManager.blockOne (if w then 1 else 0)

def queryOne (_ : Unit) : UInt64 := 1

/-- The calls take turns, and both blocks are there in the end. -/
theorem kept_blocksOne :
    (∀ w, (Runs.run (step blocksOne queryOne) start [.store false, .store true, .store true,
        .store false, .get (), .store true, .store false]).stores w = .finished) ∧
      (Runs.run (step blocksOne queryOne) start [.store false, .store true, .store true,
        .store false, .get (), .store true, .store false]).Kept blocksOne := by
  have hfinished : ∀ w, (Runs.run (step blocksOne queryOne) start [.store false, .store true,
      .store true, .store false, .get (), .store true, .store false]).stores w = .finished := by
    intro w
    cases w with
    | false => decide
    | true => decide
  exact ⟨hfinished, kept_of_quiet blocksOne queryOne _ fun w => Or.inr (hfinished w)⟩

/-! ### Queries -/

theorem stores_step_finished {w : ω} (h : t.stores w = .finished) (turn : Turn ω ρ) :
    (step block query t turn).stores w = .finished := by
  cases turn with
  | get r =>
      rw [(step_get block query t r).2, h]
  | store v =>
      by_cases hv : w = v
      · simp only [← hv, step, h]
      · cases hphase : t.stores v with
        | _ => simp [step, hphase, h, hv]

theorem gets_step_of_ne {r : ρ} {turn : Turn ω ρ} (h : turn ≠ .get r) :
    (step block query t turn).gets r = t.gets r := by
  cases turn with
  | store w =>
      simp only [step]
      split <;> rfl
  | get q =>
      have hne : r ≠ q := by
        rintro rfl
        exact h rfl
      simp only [step]
      split
      · split
        · exact Function.update_of_ne hne _ _
        · exact Function.update_of_ne hne _ _
      · exact Function.update_of_ne hne _ _
      · rfl

/-- After a store at its height has finished, a query fails exactly when no store with the
hash that it holds has written the cache. -/
theorem gets_step_ne_iff {r : ρ} (h : Consistent block t)
    (hstored : ∃ w, t.stores w = .finished ∧ (block w).height = query r)
    (hbefore : t.gets r ≠ .returned none) :
    (step block query t (.get r)).gets r ≠ .returned none ↔
      ∀ hash, t.gets r = .holds hash → ∃ w, (t.stores w).hasCached ∧ (block w).hash = hash := by
  cases hphase : t.gets r with
  | waiting =>
      obtain ⟨w, hw, hheight⟩ := hstored
      have hindexed := h.index.2 w (by rw [Set.mem_ofPred_eq, hw]; rfl)
      obtain ⟨hash, hlookup⟩ := Option.isSome_iff_exists.mp (hheight ▸ hindexed)
      simp [step, hphase, hlookup]
  | holds hash =>
      have hcache := h.cache hash
      simp only [step, hphase, Function.update_self, ne_eq, GetPhase.returned.injEq,
        GetPhase.holds.injEq, forall_eq', ← Option.isSome_iff_ne_none]
      exact hcache
  | returned result =>
      rw [hphase] at hbefore
      simp [step, hphase, hbefore]

/-- If the turn is the query's and the query holds a hash, then a store with this hash has
written the cache. -/
def ReadsCached (block : ω → StoredBlock) (r : ρ) (t : Threads ω ρ) (turn : Turn ω ρ) : Prop :=
  turn = .get r → ∀ hash, t.gets r = .holds hash →
    ∃ w, (t.stores w).hasCached ∧ (block w).hash = hash

/-- A query that begins after a store at its height has finished never returns `None`
exactly when, at each of its reads of the cache, a store with the hash that it holds has
written the cache. -/
theorem get_returns_iff (block : ω → StoredBlock) (query : ρ → UInt64)
    (pre post : List (Turn ω ρ)) (r : ρ)
    (hwaiting : (Runs.run (step block query) start pre).gets r = .waiting)
    (hstored : ∃ w, (Runs.run (step block query) start pre).stores w = .finished ∧
      (block w).height = query r) :
    Runs.Always (step block query) (fun t => t.gets r ≠ .returned none)
        (Runs.run (step block query) start pre) post ↔
      ∀ x ∈ Runs.trace (step block query) (Runs.run (step block query) start pre) post,
        ReadsCached block r x.1 x.2 := by
  apply Runs.always_iff
  · rw [hwaiting]
    exact GetPhase.noConfusion
  · rintro ⟨t, turn⟩ hx hbefore
    obtain ⟨mid, rest, _, rfl⟩ := Runs.mem_trace_iff.mp hx
    by_cases hturn : turn = .get r
    · subst hturn
      obtain ⟨w, hw, hheight⟩ := hstored
      have hconsistent : Consistent block (Runs.run (step block query)
          (Runs.run (step block query) start pre) mid) := by
        rw [← Runs.run_append]
        exact consistent_run (pre ++ mid)
      have hfinished : (Runs.run (step block query)
          (Runs.run (step block query) start pre) mid).stores w = .finished := by
        apply Runs.invariant (P := fun t : Threads ω ρ => t.stores w = .finished) hw
        intro y _ hy
        exact stores_step_finished hy y.2
      simp only [ReadsCached, true_implies]
      exact gets_step_ne_iff hconsistent ⟨w, hfinished, hheight⟩ hbefore
    · simp only [ReadsCached, hturn, false_implies, iff_true]
      rwa [gets_step_of_ne hturn]

def storedFirst : List (Turn Bool Unit) := [.store false, .store false, .store false]

/-- Without another store the query finds the first block. -/
theorem get_returns_blocksOne :
    (Runs.run (step blocksOne queryOne) start storedFirst).gets () = .waiting ∧
      (∃ w, (Runs.run (step blocksOne queryOne) start storedFirst).stores w = .finished ∧
        (blocksOne w).height = queryOne ()) ∧
      Runs.Always (step blocksOne queryOne) (fun t => t.gets () ≠ .returned none)
        (Runs.run (step blocksOne queryOne) start storedFirst) [.get (), .get ()] := by
  have hwaiting : (Runs.run (step blocksOne queryOne) start storedFirst).gets () = .waiting := by
    decide
  have hstored : ∃ w, (Runs.run (step blocksOne queryOne) start storedFirst).stores w =
      .finished ∧ (blocksOne w).height = queryOne () := ⟨false, by decide, by decide⟩
  refine ⟨hwaiting, hstored, ?_⟩
  rw [get_returns_iff blocksOne queryOne storedFirst _ () hwaiting hstored]
  intro x hx _ hash hholds
  refine ⟨false, ?_⟩
  rcases List.mem_cons.mp hx with rfl | hx
  · exact absurd (hwaiting.symm.trans hholds) GetPhase.noConfusion
  · rw [List.mem_singleton.mp hx] at hholds ⊢
    have hread : (step blocksOne queryOne (Runs.run (step blocksOne queryOne) start storedFirst)
        (.get ())).gets () = .holds (blocksOne false).hash := by decide
    exact ⟨by decide, GetPhase.holds.inj (hread.symm.trans hholds)⟩

/-- The query reads the index when the second block is in it and not yet in the cache. -/
theorem get_misses_blocksOne :
    (Runs.run (step blocksOne queryOne) start storedFirst).gets () = .waiting ∧
      (Runs.run (step blocksOne queryOne) start storedFirst).stores false = .finished ∧
      (blocksOne false).height = queryOne () ∧
      (Runs.run (step blocksOne queryOne) start
        (storedFirst ++ [.store true, .get (), .get ()])).gets () = .returned none := by
  decide

end Threads

end Storage

end Crates

end CryptoCoin
