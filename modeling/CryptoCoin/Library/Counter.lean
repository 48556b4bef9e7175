import CryptoCoin.Library.Runs
import Mathlib.Logic.Function.Basic

/-!
# A counter shared by threads

Threads increment a shared counter in two steps: a thread reads the value and later
writes the value it has read plus one. The steps of different threads interleave in any
order.

A write is fresh when the counter still has the value that the thread has read. The
counter has gone up by the number of writes exactly when all of them were fresh
(`value_eq_iff`): a stale write loses an increment, and no later one can make up for it,
since everything that threads hold from then on lies behind as well.
-/

/-- The counter, the values that threads hold, and the number of writes so far. -/
@[ext] structure Counter (τ : Type*) where
  value : ℕ
  held : τ → Option ℕ
  writes : ℕ

namespace Counter

variable {τ : Type*} [DecidableEq τ]

inductive Event (τ : Type*) where
  | read (t : τ)
  | write (t : τ)
  | other

/-- A write of a thread that holds nothing does nothing. -/
def step (c : Counter τ) : Event τ → Counter τ
  | .read t => { c with held := Function.update c.held t (some c.value) }
  | .write t =>
      match c.held t with
      | some n => ⟨n + 1, Function.update c.held t none, c.writes + 1⟩
      | none => c
  | .other => c

def Fresh (c : Counter τ) : Event τ → Prop
  | .write t => ∀ n, c.held t = some n → n = c.value
  | _ => True

theorem step_write {c : Counter τ} {t : τ} {n : ℕ} (h : c.held t = some n) :
    c.step (.write t) = ⟨n + 1, Function.update c.held t none, c.writes + 1⟩ := by
  rw [step, h]

theorem step_write_none {c : Counter τ} {t : τ} (h : c.held t = none) :
    c.step (.write t) = c := by
  rw [step, h]

theorem held_of_update_none {held : τ → Option ℕ} {t t' : τ} {n : ℕ}
    (h : Function.update held t none t' = some n) : held t' = some n := by
  by_cases ht : t' = t
  · rw [ht, Function.update_self] at h
    cases h
  · rwa [Function.update_of_ne ht] at h

/-- The value and all that is held are less than `b` and the writes together. -/
structure Below (b : ℕ) (c : Counter τ) : Prop where
  value_lt : c.value < b + c.writes
  held_lt : ∀ t n, c.held t = some n → n < b + c.writes

theorem Below.step {b : ℕ} {c : Counter τ} (h : Below b c) (e : Event τ) :
    Below b (c.step e) := by
  cases e with
  | other => exact h
  | read t =>
      refine ⟨h.value_lt, ?_⟩
      intro t' n hheld
      change Function.update c.held t (some c.value) t' = some n at hheld
      by_cases ht : t' = t
      · rw [ht, Function.update_self] at hheld
        rw [← Option.some.inj hheld]
        exact h.value_lt
      · rw [Function.update_of_ne ht] at hheld
        exact h.held_lt t' n hheld
  | write t =>
      cases hheld : c.held t with
      | none =>
          rw [step_write_none hheld]
          exact h
      | some n =>
          rw [step_write hheld]
          refine ⟨Nat.succ_lt_succ (h.held_lt t n hheld), ?_⟩
          intro t' n' hheld'
          exact Nat.lt_succ_of_lt (h.held_lt t' n' (held_of_update_none hheld'))

theorem value_step_of_fresh {b : ℕ} {c : Counter τ} (hvalue : c.value = b + c.writes)
    {e : Event τ} (hfresh : c.Fresh e) : (c.step e).value = b + (c.step e).writes := by
  cases e with
  | other => exact hvalue
  | read t => exact hvalue
  | write t =>
      cases hheld : c.held t with
      | none =>
          rw [step_write_none hheld]
          exact hvalue
      | some n =>
          rw [step_write hheld, hfresh n hheld, hvalue]
          rfl

/-- A stale write leaves the value and all that is held behind. -/
theorem below_step_of_stale {b : ℕ} {c : Counter τ} (hvalue : c.value = b + c.writes)
    (h : Below (b + 1) c) {e : Event τ} (hstale : ¬ c.Fresh e) : Below b (c.step e) := by
  cases e with
  | other => exact absurd trivial hstale
  | read t => exact absurd trivial hstale
  | write t =>
      simp only [Fresh, not_forall] at hstale
      obtain ⟨n, hheld, hne⟩ := hstale
      have hlt := h.held_lt t n hheld
      rw [step_write hheld]
      constructor
      · change n + 1 < b + (c.writes + 1)
        omega
      · intro t' n' hheld'
        change n' < b + (c.writes + 1)
        have hlt' := h.held_lt t' n' (held_of_update_none hheld')
        omega

/-- The counter has gone up by the number of writes exactly when all of them were
fresh. -/
theorem value_eq_iff {b : ℕ} {c : Counter τ} (hvalue : c.value = b + c.writes)
    (h : Below (b + 1) c) (events : List (Event τ)) :
    (Runs.run step c events).value = b + (Runs.run step c events).writes ↔
      ∀ x ∈ Runs.trace step c events, x.1.Fresh x.2 := by
  induction events generalizing c with
  | nil => simp [Runs.trace, hvalue]
  | cons e events ih =>
      rw [Runs.run_cons, Runs.trace, List.forall_mem_cons]
      by_cases hfresh : c.Fresh e
      · rw [ih (value_step_of_fresh hvalue hfresh) (h.step e)]
        exact (and_iff_right hfresh).symm
      · -- the value stays behind for the rest of the run
        have hbehind : Below b (Runs.run step (c.step e) events) := by
          apply Runs.invariant (below_step_of_stale hvalue h hfresh)
          intro x _ hx
          exact hx.step x.2
        exact iff_of_false (Nat.ne_of_lt hbehind.value_lt) fun hall => hfresh hall.1

end Counter
