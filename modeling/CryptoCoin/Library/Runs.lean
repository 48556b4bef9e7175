import Mathlib.Data.List.Basic
import Mathlib.Logic.Basic

/-!
# Runs of a state machine

A machine is a function `step s i` from a state and an input to the next state.
`run step s is` is the state after the inputs `is`, and `trace step s is` lists
every input with the state it meets, so that a condition on single steps is a
condition on the members of the trace.

Five rules turn facts about one step into facts about whole runs: an invariant
(`invariant`), a property of all states of a run (`always_iff`), a preorder between
any state of a run and a later one (`along_iff`), a log to which every step adds what it
emits (`mem_log_run`), and a rank that every step lowers until the run is done
(`exists_run_done`). The middle three are equivalences, so they also say when a run
breaks a property. `trace_map` and `run_map` carry a run over to a simpler machine whose
steps match.
-/

namespace Runs

variable {σ ι α : Type*} (step : σ → ι → σ)

def run (s : σ) (is : List ι) : σ := is.foldl step s

/-- The inputs with the states they meet. -/
def trace : σ → List ι → List (σ × ι)
  | _, [] => []
  | s, i :: is => (s, i) :: trace (step s i) is

variable {step} {s : σ}

@[simp] theorem run_nil : run step s [] = s := rfl

@[simp] theorem run_cons (i : ι) (is : List ι) :
    run step s (i :: is) = run step (step s i) is := rfl

theorem run_append (is js : List ι) : run step s (is ++ js) = run step (run step s is) js :=
  List.foldl_append

theorem mem_trace_iff {is : List ι} {x : σ × ι} :
    x ∈ trace step s is ↔ ∃ pre post, is = pre ++ x.2 :: post ∧ x.1 = run step s pre := by
  induction is generalizing s with
  | nil => simp [trace]
  | cons i is ih =>
      rw [trace, List.mem_cons, ih]
      constructor
      · rintro (rfl | ⟨pre, post, rfl, hx⟩)
        · exact ⟨[], is, rfl, rfl⟩
        · exact ⟨i :: pre, post, rfl, hx⟩
      · rintro ⟨pre, post, his, hx⟩
        cases pre with
        | nil =>
            rw [List.nil_append, List.cons.injEq] at his
            exact Or.inl (Prod.ext hx his.1.symm)
        | cons j pre =>
            rw [List.cons_append, List.cons.injEq] at his
            obtain ⟨rfl, his⟩ := his
            exact Or.inr ⟨pre, post, his, hx⟩

theorem mem_trace_append {pre : List ι} {x : σ × ι} (post : List ι)
    (h : x ∈ trace step s pre) : x ∈ trace step s (pre ++ post) := by
  obtain ⟨before, after, rfl, hx⟩ := mem_trace_iff.mp h
  exact mem_trace_iff.mpr ⟨before, after ++ post, by simp, hx⟩

/-! ### Invariants -/

/-- What the first state has and every step on the way keeps, the last state has. -/
theorem invariant {P : σ → Prop} {is : List ι} (hinit : P s)
    (hstep : ∀ x ∈ trace step s is, P x.1 → P (step x.1 x.2)) : P (run step s is) := by
  induction is generalizing s with
  | nil => exact hinit
  | cons i is ih =>
      refine ih (hstep (s, i) List.mem_cons_self hinit) ?_
      intro x hx
      exact hstep x (List.mem_cons_of_mem _ hx)

/-- The property holds in every state of the run. -/
def Always (step : σ → ι → σ) (P : σ → Prop) (s : σ) (is : List ι) : Prop :=
  ∀ pre post, is = pre ++ post → P (run step s pre)

/-- When `C` says which steps keep a property of the first state, the property holds
throughout a run exactly when every step meets `C`. -/
theorem always_iff {P : σ → Prop} {C : σ → ι → Prop} {is : List ι} (hinit : P s)
    (hstep : ∀ x ∈ trace step s is, P x.1 → (P (step x.1 x.2) ↔ C x.1 x.2)) :
    Always step P s is ↔ ∀ x ∈ trace step s is, C x.1 x.2 := by
  constructor
  · rintro h ⟨t, i⟩ hx
    obtain ⟨pre, post, his, ht⟩ := mem_trace_iff.mp hx
    have hbefore := h pre (i :: post) his
    have hafter := h (pre ++ [i]) post (by rw [his]; simp)
    rw [run_append, ← ht] at hafter
    rw [← ht] at hbefore
    exact (hstep (t, i) hx hbefore).mp hafter
  · intro h pre post his
    apply invariant (P := P) hinit
    intro x hx hP
    have hmem : x ∈ trace step s is := by
      rw [his]
      exact mem_trace_append post hx
    exact (hstep x hmem hP).mpr (h x hmem)

/-! ### Preorders along a run -/

/-- The relation holds between every state of the run and every later one. -/
def Along (step : σ → ι → σ) (R : σ → σ → Prop) (s : σ) (is : List ι) : Prop :=
  ∀ pre mid post, is = pre ++ mid ++ post → R (run step s pre) (run step s (pre ++ mid))

/-- A preorder holds along a run exactly when every step respects it. -/
theorem along_iff {R : σ → σ → Prop} (hrefl : ∀ s, R s s)
    (htrans : ∀ s t u, R s t → R t u → R s u) {is : List ι} :
    Along step R s is ↔ ∀ x ∈ trace step s is, R x.1 (step x.1 x.2) := by
  constructor
  · rintro h ⟨t, i⟩ hx
    obtain ⟨pre, post, rfl, rfl⟩ := mem_trace_iff.mp hx
    have hnext := h pre [i] post (by simp)
    rwa [run_append] at hnext
  · rintro h pre mid post rfl
    rw [run_append]
    apply invariant (P := R (run step s pre)) (hrefl _)
    rintro ⟨t, i⟩ hx hR
    obtain ⟨pre', post', rfl, rfl⟩ := mem_trace_iff.mp hx
    refine htrans _ _ _ hR (h _ (mem_trace_iff.mpr ⟨pre ++ pre', post' ++ post, ?_, ?_⟩))
    · simp
    · rw [run_append]

/-! ### Logs -/

/-- When a step adds to the log what it emits, the log of a run is what its steps
emit. -/
theorem mem_log_run {log : σ → List α} {emitted : σ → ι → List α}
    (hlog : ∀ s i a, a ∈ log (step s i) ↔ a ∈ emitted s i ∨ a ∈ log s) {is : List ι} {a : α} :
    a ∈ log (run step s is) ↔
      (∃ x ∈ trace step s is, a ∈ emitted x.1 x.2) ∨ a ∈ log s := by
  induction is generalizing s with
  | nil => simp [trace]
  | cons i is ih =>
      rw [run_cons, ih, hlog, trace]
      simp only [List.mem_cons, exists_eq_or_imp]
      rw [← or_assoc]
      exact or_congr_left or_comm

/-! ### Simulation -/

section Simulation

variable {σ' κ : Type*} {step' : σ' → κ → σ'} {abs : σ → σ'} {event : σ → ι → κ}

theorem trace_map {is : List ι}
    (h : ∀ x ∈ trace step s is, abs (step x.1 x.2) = step' (abs x.1) (event x.1 x.2)) :
    trace step' (abs s) ((trace step s is).map fun x => event x.1 x.2) =
      (trace step s is).map fun x => (abs x.1, event x.1 x.2) := by
  induction is generalizing s with
  | nil => rfl
  | cons i is ih =>
      rw [trace] at h ⊢
      obtain ⟨hfirst, hrest⟩ := List.forall_mem_cons.mp h
      rw [List.map_cons, List.map_cons, trace, ← hfirst, ih hrest]

theorem run_map {is : List ι}
    (h : ∀ x ∈ trace step s is, abs (step x.1 x.2) = step' (abs x.1) (event x.1 x.2)) :
    run step' (abs s) ((trace step s is).map fun x => event x.1 x.2) = abs (run step s is) := by
  induction is generalizing s with
  | nil => rfl
  | cons i is ih =>
      rw [trace] at h ⊢
      obtain ⟨hfirst, hrest⟩ := List.forall_mem_cons.mp h
      rw [List.map_cons, run_cons, run_cons, ← hfirst, ih hrest]

end Simulation

/-! ### Termination -/

def first (inputs : ℕ → ι) (n : ℕ) : List ι := (List.range n).map inputs

theorem first_succ (inputs : ℕ → ι) (n : ℕ) :
    first inputs (n + 1) = inputs 0 :: first (fun k => inputs (k + 1)) n := by
  rw [first, List.range_succ_eq_map, List.map_cons, List.map_map]
  rfl

theorem run_first_add (inputs : ℕ → ι) (n d : ℕ) :
    run step s (first inputs (n + d)) =
      run step (run step s (first inputs n)) (first (fun k => inputs (n + k)) d) := by
  rw [first, List.range_add, List.map_append, List.map_map, run_append]
  rfl

theorem run_first_succ (inputs : ℕ → ι) (n : ℕ) :
    run step s (first inputs (n + 1)) = step (run step s (first inputs n)) (inputs n) :=
  run_first_add inputs n 1

theorem mem_trace_first {inputs : ℕ → ι} {n : ℕ} {x : σ × ι} :
    x ∈ trace step s (first inputs n) ↔
      ∃ k < n, x = (run step s (first inputs k), inputs k) := by
  induction n generalizing s inputs with
  | zero => simp [first, trace]
  | succ n ih =>
      rw [first_succ, trace, List.mem_cons, ih]
      constructor
      · rintro (rfl | ⟨k, hk, rfl⟩)
        · exact ⟨0, Nat.succ_pos n, rfl⟩
        · refine ⟨k + 1, Nat.succ_lt_succ hk, ?_⟩
          rw [first_succ, run_cons]
      · rintro ⟨k, hk, rfl⟩
        cases k with
        | zero => exact Or.inl rfl
        | succ k =>
            refine Or.inr ⟨k, Nat.lt_of_succ_lt_succ hk, ?_⟩
            rw [first_succ, run_cons]

theorem mem_trace_first_add {inputs : ℕ → ι} {n d : ℕ} {x : σ × ι}
    (h : x ∈ trace step (run step s (first inputs n)) (first (fun k => inputs (n + k)) d)) :
    x ∈ trace step s (first inputs (n + d)) := by
  obtain ⟨k, hk, rfl⟩ := mem_trace_first.mp h
  rw [← run_first_add]
  exact mem_trace_first.mpr ⟨n + k, Nat.add_lt_add_left hk n, rfl⟩

/-- When every step that is not done lowers a well-founded rank, every stream of inputs
leads to a state that is done. The invariant `P` may be used on the way. -/
theorem exists_run_done {β : Type*} {r : β → β → Prop} (hwf : WellFounded r) (rank : σ → β)
    {P done : σ → Prop}
    (hstep : ∀ s i, P s → ¬ done s → P (step s i) ∧ r (rank (step s i)) (rank s))
    (hs : P s) (inputs : ℕ → ι) : ∃ n, done (run step s (first inputs n)) := by
  induction hrank : rank s using hwf.induction generalizing s inputs with
  | _ b ih =>
      by_cases hdone : done s
      · exact ⟨0, hdone⟩
      · obtain ⟨hkeep, hlower⟩ := hstep s (inputs 0) hs hdone
        rw [hrank] at hlower
        obtain ⟨n, hn⟩ := ih _ hlower hkeep (fun k => inputs (k + 1)) rfl
        refine ⟨n + 1, ?_⟩
        rw [first_succ, run_cons]
        exact hn

end Runs
