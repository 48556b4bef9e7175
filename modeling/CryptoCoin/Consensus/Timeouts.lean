import CryptoCoin.Consensus.Finality
import CryptoCoin.Library.Counter
import Mathlib.Algebra.BigOperators.Group.Finset.Piecewise

/-!
# Concurrent timeouts

`timeoutHandler` is four transactions: it counts the timeout, reads the state, writes the
round after the one it has read, and counts the completed round. `Threads` runs any
number of threads through them, one transaction a step, in any order.

A thread that writes a round it has read before another thread's write repeats the round
of that thread or goes back. The round is then behind the number of completed calls for
good. The round as a number with what the threads have read is the shared counter of
`CryptoCoin.Library.Counter`, as long as no word overflows, and the result on counters
says exactly when no advance is lost.
-/

namespace CryptoCoin

namespace Consensus

open Protocol (Timestamp maxWord64)

/-! ### The transactions of a call -/

/-- Where a thread is in `timeoutHandler`: not in a call, after counting the timeout,
with the state it has read, or after writing the round. -/
inductive Phase where
  | idle
  | counted
  | read (state : ConsensusState)
  | advanced
  deriving DecidableEq

/-- The round that a thread has read and not yet used. -/
def Phase.readRound : Phase → Option UInt64
  | .read state => some state.csRound.unConsensusRound
  | _ => none

def Phase.held (p : Phase) : Option ℕ := p.readRound.map UInt64.toNat

def Phase.unreturned : Phase → ℕ
  | .advanced => 1
  | _ => 0

/-- An engine and the threads that call `timeoutHandler` on it. `advances` and `completed`
count the writes of a round and the calls that have returned; no thread reads them. -/
structure Threads (ι : Type) where
  engine : ConsensusEngine
  phase : ι → Phase
  advances : ℕ
  completed : ℕ

namespace Threads

variable {ι : Type}

def ofEngine (engine : ConsensusEngine) : Threads ι := ⟨engine, fun _ => .idle, 0, 0⟩

/-- The next transaction of a thread, with the time that it takes from the clock. -/
def step [DecidableEq ι] (s : Threads ι) (call : ι × Timestamp) : Threads ι :=
  match s.phase call.1 with
  | .idle =>
      { s with
        engine := s.engine.modifyMetrics fun m => { m with cmTimeouts := m.cmTimeouts + 1 }
        phase := Function.update s.phase call.1 .counted }
  | .counted => { s with phase := Function.update s.phase call.1 (.read s.engine.ceState) }
  | .read state =>
      { s with
        engine := s.engine.modifyState fun s' =>
          { s' with
            csRound := ⟨state.csRound.unConsensusRound + 1⟩
            csStep := .proposePhase
            csRoundStart := call.2
            csTimeout := s.engine.ceConfig.ccTimeoutPropose }
        phase := Function.update s.phase call.1 .advanced
        advances := s.advances + 1 }
  | .advanced =>
      { s with
        engine := s.engine.modifyMetrics fun m =>
          { m with cmRoundsCompleted := m.cmRoundsCompleted + 1 }
        phase := Function.update s.phase call.1 .idle
        completed := s.completed + 1 }

/-- A thread that is not interrupted runs `timeoutHandler`. -/
theorem engine_run_alone [DecidableEq ι] (s : Threads ι) {t : ι} (h : s.phase t = .idle)
    (t₁ t₂ now t₃ : Timestamp) :
    (Runs.run step s [(t, t₁), (t, t₂), (t, now), (t, t₃)]).engine =
      timeoutHandler now s.engine := by
  simp only [Runs.run_cons, Runs.run_nil, step, h, Function.update_self]
  rfl

/-! ### Properties of a run -/

def round (s : Threads ι) : UInt64 := s.engine.ceState.csRound.unConsensusRound

def RoundLe (s s' : Threads ι) : Prop := s.round ≤ s'.round

/-- A write does not go behind the engine's round. -/
def Forward (s : Threads ι) (call : ι × Timestamp) : Prop :=
  ∀ r ∈ (s.phase call.1).readRound, s.round ≤ r + 1

/-- The engine is still in the round that the thread has read. -/
def Fresh (s : Threads ι) (call : ι × Timestamp) : Prop :=
  ∀ r ∈ (s.phase call.1).readRound, r = s.round

def Idle (s : Threads ι) : Prop := ∀ t, s.phase t = .idle

/-- The round and the metrics have gone up by the number of completed calls. -/
def Counted (engine : ConsensusEngine) (s : Threads ι) : Prop :=
  s.round.toNat = engine.ceState.csRound.unConsensusRound.toNat + s.completed ∧
    s.engine.ceMetrics.cmRoundsCompleted =
      engine.ceMetrics.cmRoundsCompleted + UInt64.ofNat s.completed

-- by the one round that the thread may have read, not by all rounds
instance (s : Threads ι) (call : ι × Timestamp) : Decidable (s.Forward call) :=
  Option.decidableForallMem (s.phase call.1).readRound

instance (s : Threads ι) (call : ι × Timestamp) : Decidable (s.Fresh call) :=
  Option.decidableForallMem (s.phase call.1).readRound

/-! ### The round as a shared counter -/

/-- The round, the rounds that threads have read, and the writes so far. -/
def counter (s : Threads ι) : Counter ι :=
  { value := s.round.toNat
    held := fun t => (s.phase t).held
    writes := s.advances }

/-- What a transaction does to the counter. -/
def event (s : Threads ι) (call : ι × Timestamp) : Counter.Event ι :=
  match s.phase call.1 with
  | .counted => .read call.1
  | .read _ => .write call.1
  | _ => .other

theorem fresh_counter_iff (s : Threads ι) (call : ι × Timestamp) :
    s.counter.Fresh (s.event call) ↔ s.Fresh call := by
  cases hphase : s.phase call.1 with
  | read state =>
      have hheld : s.counter.held call.1 = some state.csRound.unConsensusRound.toNat :=
        congrArg Phase.held hphase
      have hread : (s.phase call.1).readRound = some state.csRound.unConsensusRound :=
        congrArg Phase.readRound hphase
      rw [event, hphase, Fresh, hread]
      simp only [Counter.Fresh, hheld, Option.some.injEq, forall_eq', Option.mem_def]
      exact UInt64.toNat_inj
  | _ =>
      rw [event, Fresh, hphase]
      exact iff_of_true trivial fun _ hread => by cases hread

variable [DecidableEq ι]

theorem held_update_eq_self {phase : ι → Phase} {t : ι} {p : Phase}
    (h : p.held = (phase t).held) :
    (fun t' => (Function.update phase t p t').held) = fun t' => (phase t').held := by
  calc (fun t' => (Function.update phase t p t').held)
      = Function.update (Phase.held ∘ phase) t p.held := Function.comp_update Phase.held phase t p
    _ = Phase.held ∘ phase := by
        rw [h]
        exact Function.update_eq_self t _

theorem counter_step_of_read {s : Threads ι} {call : ι × Timestamp} {state : ConsensusState}
    (h : s.phase call.1 = .read state) :
    (s.step call).counter =
      { value := (state.csRound.unConsensusRound + 1).toNat
        held := Function.update s.counter.held call.1 none
        writes := s.advances + 1 } := by
  rw [step, h]
  exact Counter.ext rfl (Function.comp_update Phase.held s.phase call.1 .advanced) rfl

/-- As long as the last round is not left, a transaction is a step of the counter. -/
theorem counter_step {s : Threads ι} {call : ι × Timestamp}
    (hmax : ∀ state, s.phase call.1 = .read state →
      state.csRound.unConsensusRound ≠ maxWord64) :
    (s.step call).counter = s.counter.step (s.event call) := by
  cases hphase : s.phase call.1 with
  | idle =>
      rw [step, event, hphase]
      exact Counter.ext rfl (held_update_eq_self (by rw [hphase]; rfl)) rfl
  | counted =>
      rw [step, event, hphase]
      exact Counter.ext rfl
        (Function.comp_update Phase.held s.phase call.1 (.read s.engine.ceState)) rfl
  | read state =>
      have hheld : s.counter.held call.1 = some state.csRound.unConsensusRound.toNat :=
        congrArg Phase.held hphase
      rw [counter_step_of_read hphase, event, hphase, Counter.step_write hheld,
        Protocol.toNat_add_one (hmax state hphase)]
      rfl
  | advanced =>
      rw [step, event, hphase]
      exact Counter.ext rfl (held_update_eq_self (by rw [hphase]; rfl)) rfl

/-- The round of the engine and those that threads have read are below the start and the
writes so far, also when a word overflows. -/
theorem below_counter_step {b : ℕ} {s : Threads ι} (h : Counter.Below b s.counter)
    (call : ι × Timestamp) : Counter.Below b (s.step call).counter := by
  by_cases hmax : ∀ state, s.phase call.1 = .read state →
      state.csRound.unConsensusRound ≠ maxWord64
  · rw [counter_step hmax]
    exact h.step _
  · simp only [not_forall, not_not] at hmax
    obtain ⟨state, hphase, hlast⟩ := hmax
    rw [counter_step_of_read hphase, hlast]
    constructor
    · exact Nat.succ_pos _
    · intro t n hheld
      exact Nat.lt_succ_of_lt (h.held_lt t n (Counter.held_of_update_none hheld))

theorem below_counter_run (engine : ConsensusEngine) (schedule : List (ι × Timestamp)) :
    Counter.Below (engine.ceState.csRound.unConsensusRound.toNat + 1)
      (Runs.run step (ofEngine engine) schedule).counter := by
  apply Runs.invariant (P := fun s : Threads ι => Counter.Below _ s.counter)
  · constructor
    · exact Nat.lt_succ_self _
    · intro t n hheld
      cases hheld
  · intro x _ hx
    exact below_counter_step hx x.2

/-! ### Advances and completed calls -/

theorem advances_step_of_read {s : Threads ι} {call : ι × Timestamp} {state : ConsensusState}
    (h : s.phase call.1 = .read state) : (s.step call).advances = s.advances + 1 := by
  rw [step, h]

theorem advances_le_step (s : Threads ι) (call : ι × Timestamp) :
    s.advances ≤ (s.step call).advances := by
  rw [step]
  split
  · exact Nat.le_refl _
  · exact Nat.le_refl _
  · exact Nat.le_succ _
  · exact Nat.le_refl _

theorem advances_le_run (s : Threads ι) (schedule : List (ι × Timestamp)) :
    s.advances ≤ (Runs.run step s schedule).advances := by
  apply Runs.invariant (P := fun s' : Threads ι => s.advances ≤ s'.advances) (Nat.le_refl _)
  intro x _ hx
  exact hx.trans (advances_le_step x.1 x.2)

theorem ne_maxWord64_of_mem_trace {engine : ConsensusEngine} {schedule : List (ι × Timestamp)}
    (hbound : engine.ceState.csRound.unConsensusRound.toNat +
      (Runs.run step (ofEngine engine) schedule).advances < 2 ^ 64)
    {x : Threads ι × (ι × Timestamp)} (hx : x ∈ Runs.trace step (ofEngine engine) schedule)
    {state : ConsensusState} (hread : x.1.phase x.2.1 = .read state) :
    state.csRound.unConsensusRound ≠ maxWord64 := by
  obtain ⟨pre, post, rfl, hpre⟩ := Runs.mem_trace_iff.mp hx
  have hbelow := below_counter_run engine pre
  rw [← hpre] at hbelow
  have hlt := hbelow.held_lt x.2.1 _ (congrArg Phase.held hread)
  rw [Runs.run_append, Runs.run_cons, ← hpre] at hbound
  have hle := advances_le_run (x.1.step x.2) post
  rw [advances_step_of_read hread] at hle
  intro hlast
  rw [hlast] at hlt
  change 18446744073709551615 < _ + x.1.advances at hlt
  omega

section Finite

variable [Fintype ι]

theorem sum_unreturned_update (phase : ι → Phase) (t : ι) (p : Phase) :
    ∑ t', (Function.update phase t p t').unreturned + (phase t).unreturned =
      ∑ t', (phase t').unreturned + p.unreturned := by
  have hupdate : (fun t' => (Function.update phase t p t').unreturned) =
      Function.update (fun t' => (phase t').unreturned) t p.unreturned :=
    Function.comp_update Phase.unreturned phase t p
  rw [hupdate, Finset.sum_update_of_mem (Finset.mem_univ t),
    Finset.sum_eq_sum_sdiff_singleton_add (Finset.mem_univ t) fun t' => (phase t').unreturned]
  omega

/-- Every write of a round belongs to a call that has returned or is about to, and the
metrics count the calls that have returned. -/
structure Counts (engine : ConsensusEngine) (s : Threads ι) : Prop where
  advances_eq : s.advances = s.completed + ∑ t, (s.phase t).unreturned
  cmRoundsCompleted_eq : s.engine.ceMetrics.cmRoundsCompleted =
    engine.ceMetrics.cmRoundsCompleted + UInt64.ofNat s.completed

theorem Counts.step {engine : ConsensusEngine} {s : Threads ι} (h : Counts engine s)
    (call : ι × Timestamp) : Counts engine (s.step call) := by
  have hadvances := h.advances_eq
  have hsum := sum_unreturned_update s.phase call.1
  cases hphase : s.phase call.1 with
  | idle =>
      have hcounted := hsum .counted
      rw [hphase] at hcounted
      rw [Threads.step, hphase]
      exact ⟨hadvances.trans (congrArg _ hcounted.symm), h.cmRoundsCompleted_eq⟩
  | counted =>
      have hread := hsum (.read s.engine.ceState)
      rw [hphase] at hread
      rw [Threads.step, hphase]
      exact ⟨hadvances.trans (congrArg _ hread.symm), h.cmRoundsCompleted_eq⟩
  | read state =>
      have hadvanced := hsum .advanced
      rw [hphase] at hadvanced
      rw [Threads.step, hphase]
      refine ⟨?_, h.cmRoundsCompleted_eq⟩
      change s.advances + 1 = s.completed + _
      rw [hadvances, Nat.add_assoc]
      exact congrArg _ hadvanced.symm
  | advanced =>
      have hidle := hsum .idle
      rw [hphase] at hidle
      rw [Threads.step, hphase]
      constructor
      · change s.advances = s.completed + 1 + _
        rw [hadvances, Nat.add_assoc, Nat.add_comm 1]
        exact congrArg _ hidle.symm
      · change s.engine.ceMetrics.cmRoundsCompleted + 1 = _ + UInt64.ofNat (s.completed + 1)
        rw [h.cmRoundsCompleted_eq, UInt64.ofNat_add, UInt64.add_assoc]
        rfl

theorem counts_run (engine : ConsensusEngine) (schedule : List (ι × Timestamp)) :
    Counts engine (Runs.run step (ofEngine engine) schedule) := by
  apply Runs.invariant (P := fun s : Threads ι => Counts engine s)
  · constructor
    · change 0 = 0 + ∑ _ : ι, 0
      rw [Finset.sum_const_zero, Nat.add_zero]
    · exact (UInt64.add_zero _).symm
  · intro x _ hx
    exact hx.step x.2

end Finite

/-! ### Lost advances -/

theorem roundLe_step_iff (s : Threads ι) (call : ι × Timestamp) :
    RoundLe s (s.step call) ↔ s.Forward call := by
  cases hphase : s.phase call.1 with
  | read state =>
      have hround : (s.step call).round = state.csRound.unConsensusRound + 1 := by
        rw [step, hphase]
        rfl
      have hread : (s.phase call.1).readRound = some state.csRound.unConsensusRound :=
        congrArg Phase.readRound hphase
      rw [RoundLe, hround, Forward, hread]
      simp only [Option.mem_def, Option.some.injEq, forall_eq']
  | _ =>
      rw [RoundLe, step, Forward, hphase]
      exact iff_of_true (UInt64.le_refl _) fun _ hread => by cases hread

theorem round_eq_iff {engine : ConsensusEngine} {schedule : List (ι × Timestamp)}
    (hbound : engine.ceState.csRound.unConsensusRound.toNat +
      (Runs.run step (ofEngine engine) schedule).advances < 2 ^ 64) :
    (Runs.run step (ofEngine engine) schedule).round.toNat =
        engine.ceState.csRound.unConsensusRound.toNat +
          (Runs.run step (ofEngine engine) schedule).advances ↔
      ∀ x ∈ Runs.trace step (ofEngine engine) schedule, x.1.Fresh x.2 := by
  have hsim : ∀ x ∈ Runs.trace step (ofEngine engine) schedule,
      (x.1.step x.2).counter = x.1.counter.step (x.1.event x.2) := by
    intro x hx
    exact counter_step fun state hread => ne_maxWord64_of_mem_trace hbound hx hread
  have hcounter := Counter.value_eq_iff (c := (ofEngine engine : Threads ι).counter) rfl
    (below_counter_run engine []) ((Runs.trace step (ofEngine engine) schedule).map fun x =>
      x.1.event x.2)
  rw [Runs.run_map hsim, Runs.trace_map hsim, List.forall_mem_map] at hcounter
  simp only [fresh_counter_iff] at hcounter
  exact hcounter

/-- In every interleaving of timeouts with room for its rounds, the round never decreases
and counts the completed calls whenever no call is in progress, exactly when no write
goes behind the engine's round and up to every such moment all writes were made in the
round that was read. -/
theorem timeouts_counted_iff [Fintype ι] (engine : ConsensusEngine)
    (schedule : List (ι × Timestamp))
    (hbound : engine.ceState.csRound.unConsensusRound.toNat +
      (Runs.run step (ofEngine engine) schedule).advances < 2 ^ 64) :
    (Runs.Along step RoundLe (ofEngine engine) schedule ∧
        Runs.Always step (fun s => s.Idle → s.Counted engine) (ofEngine engine) schedule) ↔
      (∀ x ∈ Runs.trace step (ofEngine engine) schedule, x.1.Forward x.2) ∧
        ∀ pre post, schedule = pre ++ post → (Runs.run step (ofEngine engine) pre).Idle →
          ∀ x ∈ Runs.trace step (ofEngine engine) pre, x.1.Fresh x.2 := by
  apply and_congr
  · rw [Runs.along_iff]
    · simp only [roundLe_step_iff]
    · intro s
      exact UInt64.le_refl _
    · intro s₁ s₂ s₃ h₁₂ h₂₃
      exact UInt64.le_trans h₁₂ h₂₃
  · refine forall₃_congr fun pre post hsplit => forall_congr' fun hidle => ?_
    have hle := advances_le_run (Runs.run step (ofEngine engine) pre) post
    rw [hsplit, Runs.run_append] at hbound
    have hcounts := counts_run engine pre
    have hreturned : (Runs.run step (ofEngine engine) pre).advances =
        (Runs.run step (ofEngine engine) pre).completed := by
      rw [hcounts.advances_eq, Finset.sum_eq_zero, Nat.add_zero]
      intro t _
      rw [hidle t]
      rfl
    rw [← round_eq_iff (by omega), Counted, hreturned]
    exact and_iff_left hcounts.cmRoundsCompleted_eq

end Threads

namespace FourValidators

def serialTimeouts : List (Bool × Timestamp) :=
  [false, false, false, false, true, true, true, true].map fun t => (t, ⟨0⟩)

/-- Two threads that both read the state before either writes it. -/
def crossedTimeouts : List (Bool × Timestamp) :=
  [false, false, true, true, false, true, false, true].map fun t => (t, ⟨0⟩)

end FourValidators

open FourValidators in
theorem serialTimeouts_counted :
    newEngine.ceState.csRound.unConsensusRound.toNat +
        (Runs.run Threads.step (.ofEngine newEngine) serialTimeouts).advances < 2 ^ 64 ∧
      Runs.Along Threads.step Threads.RoundLe (.ofEngine newEngine) serialTimeouts ∧
      Runs.Always Threads.step (fun s => s.Idle → s.Counted newEngine) (.ofEngine newEngine)
        serialTimeouts := by
  have hbound : newEngine.ceState.csRound.unConsensusRound.toNat +
      (Runs.run Threads.step (.ofEngine newEngine) serialTimeouts).advances < 2 ^ 64 := by
    decide +kernel
  have hforward : ∀ x ∈ Runs.trace Threads.step (.ofEngine newEngine) serialTimeouts,
      x.1.Forward x.2 := by decide +kernel
  have hfresh : ∀ x ∈ Runs.trace Threads.step (.ofEngine newEngine) serialTimeouts,
      x.1.Fresh x.2 := by decide +kernel
  refine ⟨hbound, (Threads.timeouts_counted_iff newEngine serialTimeouts hbound).mpr
    ⟨hforward, ?_⟩⟩
  intro pre post hsplit _ x hx
  apply hfresh
  rw [hsplit]
  exact Runs.mem_trace_append post hx

open FourValidators in
/-- Both calls return, and the engine has gone from round 0 to round 1. -/
theorem crossedTimeouts_lose_round :
    (Runs.run Threads.step (.ofEngine newEngine) crossedTimeouts).Idle ∧
      (Runs.run Threads.step (.ofEngine newEngine) crossedTimeouts).completed = 2 ∧
      newEngine.ceState.csRound = ⟨0⟩ ∧
      (Runs.run Threads.step (.ofEngine newEngine) crossedTimeouts).engine.ceState.csRound =
        ⟨1⟩ := by
  refine ⟨?_, ?_, ?_, ?_⟩
  · intro t
    cases t with
    | false => rfl
    | true => rfl
  · rfl
  · rfl
  · rfl

end Consensus

end CryptoCoin
