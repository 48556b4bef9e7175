import CryptoCoin.Consensus.Equivocation
import CryptoCoin.Consensus.Moves
import CryptoCoin.Consensus.Rotation
import Mathlib.Data.Prod.Lex

/-!
# The message loop ends

A round drains the queue, the drained messages are applied, and a view change among them
may run another round, which drains what was broadcast in the meantime. Handlers
broadcast prevotes and precommits and rounds broadcast proposals, but nothing broadcasts
a view change. So there are at most as many further rounds as view changes in the queue
and among the pending messages, and every call ends (`exists_pending_eq_nil`).

The rank of a machine counts these, twice each, and the rounds that are pending, and then
the pending tasks: a view change gives way to one round at most, a round to messages, and
every other message to nothing.

Not every call ends well. A round in which the engine proposes puts the engine's own
proposal in front of the batch it applies, and applying it raises an exception, so the
batch is lost. With an active validator nothing else fails: a call returns exactly when
none of its rounds proposes (`runConsensusRound_returns_iff`).
-/

namespace CryptoCoin

namespace Consensus

/-! ### A proposer -/

theorem roundProposer_ne_none (round : ConsensusRound) {vset : ValidatorSet}
    (h : activeValidators vset ≠ []) : roundProposer round vset ≠ none := by
  rw [roundProposer_eq_getElem? h, ne_eq, Option.map_eq_none_iff, List.getElem?_eq_none_iff,
    not_le]
  exact proposerPosition_lt round (List.length_pos_iff.mpr h)

/-- With an active validator only the engine's own proposal fails. -/
theorem perform_ne_none (answers : Answers) {engine : ConsensusEngine}
    (h : activeValidators engine.ceState.csValidatorSet ≠ []) {task : Task}
    (htask : ∀ p, task ≠ .applyConsensusMessage (.ownProposal p)) :
    perform answers engine task ≠ none := by
  intro hnone
  rcases perform_eq_none answers engine hnone with ⟨p, rfl⟩ | ⟨hproposer, _⟩
  · exact htask p rfl
  · exact roundProposer_ne_none _ h hproposer

/-! ### The rank -/

def ConsensusMessage.isViewChange : ConsensusMessage → Bool
  | .viewChange _ => true
  | _ => false

def viewChangeCount (msgs : List ConsensusMessage) : ℕ :=
  msgs.countP ConsensusMessage.isViewChange

def roundCount (tasks : List Task) : ℕ := tasks.count .runConsensusRound

namespace Machine

/-- The view changes that are still to be applied, in the queue or pending. -/
def viewChanges (m : Machine) : ℕ :=
  viewChangeCount (m.engine.ceMsgQueue ++ taskMessages m.pending)

def rank (m : Machine) : ℕ × ℕ :=
  (2 * m.viewChanges + roundCount m.pending, m.pending.length)

theorem taskMessages_append (tasks rest : List Task) :
    taskMessages (tasks ++ rest) = taskMessages tasks ++ taskMessages rest :=
  List.filterMap_append

theorem viewChangeCount_cons (queue : List ConsensusMessage) (msg : ConsensusMessage)
    (rest : List Task) :
    viewChangeCount (queue ++ taskMessages (.applyConsensusMessage msg :: rest)) =
      viewChangeCount (queue ++ taskMessages rest) + if msg.isViewChange then 1 else 0 := by
  have hcons : taskMessages (.applyConsensusMessage msg :: rest) = msg :: taskMessages rest := rfl
  rw [hcons, viewChangeCount, viewChangeCount, List.countP_append, List.countP_append,
    List.countP_cons, Nat.add_assoc]

end Machine

theorem viewChangeCount_effect (answers : Answers) (engine : ConsensusEngine) (task : Task)
    (o : Observation) :
    viewChangeCount ((task.effect answers engine).apply o).broadcasts =
      viewChangeCount o.broadcasts := by
  cases heffect : task.effect answers engine with
  | broadcast msg =>
      rcases Task.effect_eq_broadcast answers engine heffect with
        ⟨p, _, _, rfl⟩ | ⟨p, value, _, _, rfl⟩ | ⟨_, rfl⟩
      · rfl
      · rfl
      · rfl
  | _ => rfl

/-- The messages that wait after a task, in the queue or pending, are those that waited
before it and the one it broadcasts. -/
theorem broadcasts_perform {answers : Answers} {engine engine' : ConsensusEngine}
    {task : Task} {tasks : List Task} (h : perform answers engine task = some (engine', tasks))
    (rest : List Task) :
    engine'.ceMsgQueue ++ Machine.taskMessages (tasks ++ rest) =
      ((task.effect answers engine).apply
        (observe engine (Machine.taskMessages rest))).broadcasts := by
  rw [Machine.taskMessages_append]
  exact congrArg Observation.broadcasts (observe_perform answers engine _ h)

theorem viewChangeCount_perform {answers : Answers} {engine engine' : ConsensusEngine}
    {task : Task} {tasks : List Task} (h : perform answers engine task = some (engine', tasks))
    (rest : List Task) :
    viewChangeCount (engine'.ceMsgQueue ++ Machine.taskMessages (tasks ++ rest)) =
      viewChangeCount (engine.ceMsgQueue ++ Machine.taskMessages rest) := by
  rw [broadcasts_perform h, viewChangeCount_effect]
  rfl

theorem tasks_of_message {answers : Answers} {engine engine' : ConsensusEngine}
    {msg : ConsensusMessage} {tasks : List Task}
    (h : perform answers engine (.applyConsensusMessage msg) = some (engine', tasks)) :
    tasks = [] ∨ tasks = [.runConsensusRound] := by
  cases msg with
  | viewChange vc =>
      simp only [perform, applyConsensusMessage, handleViewChange] at h
      split at h
      · cases h
        exact Or.inr rfl
      · cases h
        exact Or.inl rfl
  | proposal p => exact Or.inl (eq_of_perform_proposal h).2
  | ownProposal p => cases h
  | _ =>
      cases h
      exact Or.inl rfl

/-- A round ends in messages, a view change in one round at most, and other messages in
nothing. -/
theorem tasks_of_perform {answers : Answers} {engine engine' : ConsensusEngine} {task : Task}
    {tasks : List Task} (h : perform answers engine task = some (engine', tasks)) :
    (task = .runConsensusRound ∧ roundCount tasks = 0) ∨
      (∃ vc, task = .applyConsensusMessage (.viewChange vc) ∧ roundCount tasks ≤ 1) ∨
      (∃ msg, task = .applyConsensusMessage msg ∧ msg.isViewChange = false ∧ tasks = []) := by
  cases task with
  | runConsensusRound =>
      refine Or.inl ⟨rfl, ?_⟩
      have hmap : ∃ msgs : List ConsensusMessage, tasks = msgs.map .applyConsensusMessage := by
        rcases runConsensusRound_cases h with ⟨_, hresult⟩ | ⟨_, hresult⟩
        · cases hresult
          exact ⟨_, rfl⟩
        · cases hresult
          exact ⟨_, rfl⟩
      obtain ⟨msgs, rfl⟩ := hmap
      rw [roundCount, List.count_eq_zero]
      intro hmem
      obtain ⟨msg, _, hmsg⟩ := List.mem_map.mp hmem
      cases hmsg
  | applyConsensusMessage msg =>
      cases msg with
      | viewChange vc =>
          refine Or.inr (Or.inl ⟨vc, rfl, ?_⟩)
          rcases tasks_of_message h with rfl | rfl
          · exact Nat.zero_le 1
          · exact Nat.le_refl 1
      | proposal p =>
          exact Or.inr (Or.inr ⟨_, rfl, rfl, (eq_of_perform_proposal h).2⟩)
      | ownProposal p => cases h
      | _ =>
          cases h
          exact Or.inr (Or.inr ⟨_, rfl, rfl, rfl⟩)

namespace Machine

/-- Every task that is performed lowers the rank. -/
theorem rank_perform {m : Machine} {answers : Answers} {task : Task} {rest tasks : List Task}
    {engine' : ConsensusEngine} (hpending : m.pending = task :: rest)
    (h : perform answers m.engine task = some (engine', tasks))
    (drained : List ConsensusMessage) :
    Prod.Lex (· < ·) (· < ·) (rank ⟨engine', tasks ++ rest, drained⟩) m.rank := by
  have hviews : viewChanges ⟨engine', tasks ++ rest, drained⟩ =
      viewChangeCount (m.engine.ceMsgQueue ++ taskMessages rest) := viewChangeCount_perform h rest
  have hrounds : roundCount (tasks ++ rest) = roundCount tasks + roundCount rest :=
    List.count_append
  rw [rank, rank, hviews, viewChanges, hpending]
  rcases tasks_of_perform h with ⟨rfl, hnone⟩ | ⟨vc, rfl, hone⟩ | ⟨msg, rfl, hmsg, rfl⟩
  · have hround : roundCount (.runConsensusRound :: rest) = roundCount rest + 1 :=
      List.count_cons_self
    apply Prod.Lex.left
    rw [hrounds, hnone, hround, Nat.zero_add]
    exact Nat.lt_succ_self _
  · have hround : roundCount (.applyConsensusMessage (.viewChange vc) :: rest) =
        roundCount rest := List.count_cons_of_ne (by simp)
    apply Prod.Lex.left
    rw [hrounds, hround, viewChangeCount_cons, ConsensusMessage.isViewChange, if_pos rfl]
    omega
  · have hround : roundCount (.applyConsensusMessage msg :: rest) = roundCount rest :=
      List.count_cons_of_ne (by simp)
    rw [hround, viewChangeCount_cons, hmsg, if_neg Bool.false_ne_true]
    apply Prod.Lex.right
    exact Nat.lt_succ_self _

theorem rank_abandon {m : Machine} (hpending : m.pending ≠ []) :
    Prod.Lex (· < ·) (· < ·) (rank { m with pending := [] }) m.rank := by
  have hviews : viewChanges { m with pending := [] } ≤ m.viewChanges :=
    List.Sublist.countP_le (List.Sublist.append_left (List.nil_sublist _) _)
  have hlength : 0 < m.pending.length := List.length_pos_iff.mpr hpending
  rw [rank, rank, Prod.lex_def]
  have hzero : roundCount [] = 0 := rfl
  simp only [hzero, List.length_nil]
  omega

theorem rank_resume {m : Machine} (hpending : m.pending ≠ []) (answers : Answers) :
    Prod.Lex (· < ·) (· < ·) (m.resume answers).rank m.rank := by
  obtain ⟨task, rest, htask⟩ := List.exists_cons_of_ne_nil hpending
  cases hperform : perform answers m.engine task with
  | none =>
      simp only [resume, htask, hperform]
      exact rank_abandon hpending
  | some result =>
      simp only [resume, htask, hperform]
      exact rank_perform htask hperform _

theorem exists_pending_eq_nil (m : Machine) (answers : ℕ → Answers) :
    ∃ n, (Runs.run resume m (Runs.first answers n)).pending = [] := by
  have hlex : WellFounded (Prod.Lex (· < ·) (· < ·) : ℕ × ℕ → ℕ × ℕ → Prop) :=
    WellFounded.prod_lex wellFounded_lt wellFounded_lt
  exact Runs.exists_run_done hlex rank (P := fun _ => True)
    (fun m a _ hbusy => ⟨trivial, rank_resume hbusy a⟩) trivial answers

theorem activeValidators_resume (m : Machine) (answers : Answers) :
    activeValidators (m.resume answers).engine.ceState.csValidatorSet =
      activeValidators m.engine.ceState.csValidatorSet :=
  congrArg activeValidators (csValidatorSet_step m (.resume answers))

theorem activeValidators_run (m : Machine) (answers : List Answers) :
    activeValidators (Runs.run resume m answers).engine.ceState.csValidatorSet =
      activeValidators m.engine.ceState.csValidatorSet := by
  induction answers generalizing m with
  | nil => rfl
  | cons a answers ih => rw [Runs.run_cons, ih, activeValidators_resume]

/-! ### Calls that return -/

theorem resume_of_pending_eq_nil {m : Machine} (h : m.pending = []) (answers : Answers) :
    m.resume answers = m := by
  simp only [resume, h]

theorem resume_of_perform_eq_none {m : Machine} {answers : Answers} {task : Task}
    {rest : List Task} (hpending : m.pending = task :: rest)
    (h : perform answers m.engine task = none) :
    m.resume answers = { m with pending := [] } := by
  simp only [resume, hpending, h]

theorem resume_of_perform_eq_some {m : Machine} {answers : Answers} {task : Task}
    {rest tasks : List Task} {engine' : ConsensusEngine} (hpending : m.pending = task :: rest)
    (h : perform answers m.engine task = some (engine', tasks)) :
    m.resume answers = ⟨engine', tasks ++ rest, taskMessages tasks ++ m.drained⟩ := by
  simp only [resume, hpending, h]

theorem run_of_pending_eq_nil {m : Machine} (h : m.pending = []) (answers : List Answers) :
    Runs.run resume m answers = m := by
  induction answers with
  | nil => rfl
  | cons a answers ih => rw [Runs.run_cons, resume_of_pending_eq_nil h, ih]

theorem run_first_of_pending_eq_nil {m : Machine} {answers : ℕ → Answers} {n k : ℕ}
    (hdone : (Runs.run resume m (Runs.first answers n)).pending = []) (hk : n ≤ k) :
    Runs.run resume m (Runs.first answers k) = Runs.run resume m (Runs.first answers n) := by
  obtain ⟨d, rfl⟩ := Nat.exists_eq_add_of_le hk
  rw [Runs.run_first_add, run_of_pending_eq_nil hdone]

def Performs (m : Machine) (answers : Answers) : Prop :=
  ∀ task ∈ m.pending.head?, perform answers m.engine task ≠ none

theorem Performs.exists_perform {m : Machine} {answers : Answers} (h : m.Performs answers)
    {task : Task} {rest : List Task} (hpending : m.pending = task :: rest) :
    ∃ engine' tasks, perform answers m.engine task = some (engine', tasks) := by
  have htask : perform answers m.engine task ≠ none := h task (by rw [hpending]; rfl)
  obtain ⟨⟨engine', tasks⟩, hresult⟩ := Option.ne_none_iff_exists'.mp htask
  exact ⟨engine', tasks, hresult⟩

/-- The current call ends without an exception. -/
def Returns (m : Machine) (answers : ℕ → Answers) : Prop :=
  ∃ n, (Runs.run resume m (Runs.first answers n)).pending = [] ∧
    ∀ x ∈ Runs.trace resume m (Runs.first answers n), x.1.Performs x.2

/-- A round is next, and the engine is its proposer. -/
def Proposes (m : Machine) : Prop :=
  m.pending.head? = some .runConsensusRound ∧
    shouldPropose m.engine.ceState.csRound m.engine.ceState.csValidatorSet
      m.engine.ceValidator = some true

instance (m : Machine) : Decidable m.Proposes := inferInstanceAs (Decidable (_ ∧ _))

theorem Proposes.exists_pending {m : Machine} (h : m.Proposes) :
    ∃ rest, m.pending = .runConsensusRound :: rest := by
  obtain ⟨hhead, _⟩ := h
  exact List.head?_eq_some_iff.mp hhead

theorem not_proposes_of_done {m : Machine} {answers : ℕ → Answers} {n : ℕ}
    (hdone : (Runs.run resume m (Runs.first answers n)).pending = [])
    (hbefore : ∀ k < n, ¬ (Runs.run resume m (Runs.first answers k)).Proposes) (k : ℕ) :
    ¬ (Runs.run resume m (Runs.first answers k)).Proposes := by
  rcases Nat.lt_or_ge k n with hk | hk
  · exact hbefore k hk
  · intro hproposes
    obtain ⟨rest, hpending⟩ := hproposes.exists_pending
    rw [run_first_of_pending_eq_nil hdone hk, hdone] at hpending
    cases hpending

def OwnPending (m : Machine) : Prop :=
  ∃ p, .applyConsensusMessage (.ownProposal p) ∈ m.pending

/-- A round that is performed has the messages of its queue to apply, and first the
engine's proposal if it makes one. -/
theorem ownPending_resume_of_round {m : Machine} {rest : List Task}
    (hpending : m.pending = .runConsensusRound :: rest) {answers : Answers}
    (hperforms : m.Performs answers)
    (h : m.Proposes ∨ ∃ p, .ownProposal p ∈ m.engine.ceMsgQueue) :
    (m.resume answers).OwnPending := by
  obtain ⟨engine', tasks, hresult⟩ := hperforms.exists_perform hpending
  rw [resume_of_perform_eq_some hpending hresult]
  have hown : ∃ p, Task.applyConsensusMessage (.ownProposal p) ∈ tasks := by
    rcases runConsensusRound_cases hresult with ⟨_, hprocess⟩ | ⟨hpropose, hprocess⟩
    · cases hprocess
      exact ⟨ownProposal m.engine, List.mem_cons_self⟩
    · cases hprocess
      rcases h with hproposes | ⟨p, hp⟩
      · exact absurd (hpropose.symm.trans hproposes.2) (by decide)
      · exact ⟨p, List.mem_map_of_mem hp⟩
  obtain ⟨p, hp⟩ := hown
  exact ⟨p, List.mem_append_left rest hp⟩

theorem ownPending_resume {m : Machine} {answers : Answers} (h : m.OwnPending)
    (hperforms : m.Performs answers) : (m.resume answers).OwnPending := by
  obtain ⟨p, hp⟩ := h
  obtain ⟨task, rest, hpending⟩ := List.exists_cons_of_ne_nil (List.ne_nil_of_mem hp)
  obtain ⟨engine', tasks, hresult⟩ := hperforms.exists_perform hpending
  rw [resume_of_perform_eq_some hpending hresult]
  rw [hpending, List.mem_cons] at hp
  rcases hp with rfl | hp
  · cases hresult
  · exact ⟨p, List.mem_append_right tasks hp⟩

theorem not_returns_of_ownPending {m : Machine} {answers : ℕ → Answers} {n : ℕ}
    (h : (Runs.run resume m (Runs.first answers n)).OwnPending) : ¬ m.Returns answers := by
  rintro ⟨e, hdone, hperforms⟩
  have hend : ∃ k, (Runs.run resume m (Runs.first answers k)).OwnPending ∧ e ≤ k := by
    rcases Nat.le_total e n with hle | hle
    · exact ⟨n, h, hle⟩
    · obtain ⟨d, rfl⟩ := Nat.exists_eq_add_of_le hle
      refine ⟨n + d, ?_, Nat.le_refl _⟩
      rw [Runs.run_first_add]
      apply Runs.invariant (P := OwnPending) h
      intro x hx hown
      exact ownPending_resume hown (hperforms x (Runs.mem_trace_first_add hx))
  obtain ⟨k, ⟨p, hp⟩, hle⟩ := hend
  rw [run_first_of_pending_eq_nil hdone hle, hdone] at hp
  cases hp

theorem not_returns_of_proposes {m : Machine} {answers : ℕ → Answers} {n : ℕ}
    (h : (Runs.run resume m (Runs.first answers n)).Proposes) : ¬ m.Returns answers := by
  intro hreturns
  obtain ⟨rest, hpending⟩ := h.exists_pending
  obtain ⟨e, hdone, hperforms⟩ := id hreturns
  have hn : n < e := by
    by_contra hle
    rw [run_first_of_pending_eq_nil hdone (Nat.not_lt.mp hle), hdone] at hpending
    cases hpending
  have hperform := hperforms _ (Runs.mem_trace_first.mpr ⟨n, hn, rfl⟩)
  refine not_returns_of_ownPending (n := n + 1) ?_ hreturns
  rw [Runs.run_first_succ]
  exact ownPending_resume_of_round hpending hperform (Or.inl h)

/-- No own proposal waits, in the queue or among the pending messages. -/
def NoOwnProposal (m : Machine) : Prop :=
  ∀ p, .ownProposal p ∉ m.engine.ceMsgQueue ++ taskMessages m.pending

/-- Only a round in which the engine proposes makes an own proposal. -/
theorem eq_round_of_broadcast_ownProposal {answers : Answers} {engine : ConsensusEngine}
    {task : Task} {p : OwnProposal}
    (h : task.effect answers engine = .broadcast (.ownProposal p)) :
    task = .runConsensusRound ∧
      shouldPropose engine.ceState.csRound engine.ceState.csValidatorSet engine.ceValidator =
        some true := by
  rcases Task.effect_eq_broadcast answers engine h with
    ⟨q, _, _, hmsg⟩ | ⟨q, value, _, _, hmsg⟩ | ⟨rfl, _⟩
  · cases hmsg
  · cases hmsg
  · refine ⟨rfl, ?_⟩
    by_contra hother
    rw [Task.effect, if_neg hother] at h
    cases h

theorem noOwnProposal_resume {m : Machine} (h : m.NoOwnProposal) (hnot : ¬ m.Proposes)
    (answers : Answers) : (m.resume answers).NoOwnProposal := by
  cases hpending : m.pending with
  | nil => rwa [resume_of_pending_eq_nil hpending]
  | cons task rest =>
      cases hperform : perform answers m.engine task with
      | none =>
          rw [resume_of_perform_eq_none hpending hperform]
          intro p hp
          rcases List.mem_append.mp hp with hp | hp
          · exact h p (List.mem_append_left _ hp)
          · cases hp
      | some result =>
          have hrest : ∀ p, .ownProposal p ∉ m.engine.ceMsgQueue ++ taskMessages rest := by
            intro p hp
            apply h p
            rw [hpending]
            exact (((List.sublist_cons_self task rest).filterMap _).append_left _).subset hp
          rw [resume_of_perform_eq_some hpending hperform]
          intro p hp
          rw [broadcasts_perform hperform rest] at hp
          cases heffect : task.effect answers m.engine with
          | broadcast msg =>
              rw [heffect, Effect.apply, List.mem_cons] at hp
              rcases hp with rfl | hp
              · obtain ⟨rfl, hpropose⟩ := eq_round_of_broadcast_ownProposal heffect
                exact hnot ⟨by rw [hpending]; rfl, hpropose⟩
              · exact hrest p hp
          | _ =>
              rw [heffect] at hp
              exact hrest p hp

theorem noOwnProposal_run {m : Machine} {answers : ℕ → Answers} (h : m.NoOwnProposal)
    (hnever : ∀ n, ¬ (Runs.run resume m (Runs.first answers n)).Proposes) (n : ℕ) :
    (Runs.run resume m (Runs.first answers n)).NoOwnProposal := by
  induction n with
  | zero => exact h
  | succ n ih =>
      rw [Runs.run_first_succ]
      exact noOwnProposal_resume ih (hnever n) (answers n)

theorem performs_of_noOwnProposal {m : Machine} (h : m.NoOwnProposal)
    (hactive : activeValidators m.engine.ceState.csValidatorSet ≠ []) (answers : Answers) :
    m.Performs answers := by
  intro task htask
  apply perform_ne_none answers hactive
  rintro p rfl
  obtain ⟨rest, hpending⟩ := List.head?_eq_some_iff.mp htask
  apply h p
  rw [hpending]
  exact List.mem_append_right _ List.mem_cons_self

/-- With an active validator every call of `runConsensusRound` ends, whatever its queue holds
and whatever the collectors answer. It ends without an exception exactly when no own
proposal was queued and the engine proposes in none of the rounds that the call runs. -/
theorem runConsensusRound_returns_iff (engine : ConsensusEngine)
    (hactive : activeValidators engine.ceState.csValidatorSet ≠ []) (answers : ℕ → Answers) :
    (∃ n, (Runs.run resume ((ofEngine engine).step .runConsensusRound)
        (Runs.first answers n)).pending = []) ∧
      (Returns ((ofEngine engine).step .runConsensusRound) answers ↔
        (∀ p, .ownProposal p ∉ engine.ceMsgQueue) ∧
          ∀ n, ¬ Proposes (Runs.run resume ((ofEngine engine).step .runConsensusRound)
            (Runs.first answers n))) := by
  have hend := exists_pending_eq_nil ((ofEngine engine).step .runConsensusRound) answers
  refine ⟨hend, ?_, ?_⟩
  · intro hreturns
    refine ⟨?_, fun n hproposes => not_returns_of_proposes hproposes hreturns⟩
    intro p hp
    have hround : Performs ((ofEngine engine).step .runConsensusRound) (answers 0) := by
      intro task htask
      cases htask
      exact perform_ne_none (answers 0) hactive (fun p => Task.noConfusion)
    have hown := ownPending_resume_of_round rfl hround (Or.inr ⟨p, hp⟩)
    have hfirst : OwnPending (Runs.run resume ((ofEngine engine).step .runConsensusRound)
        (Runs.first answers 1)) := hown
    exact not_returns_of_ownPending hfirst hreturns
  · rintro ⟨hqueue, hnever⟩
    obtain ⟨n, hdone⟩ := hend
    refine ⟨n, hdone, ?_⟩
    intro x hx
    obtain ⟨k, _, rfl⟩ := Runs.mem_trace_first.mp hx
    have hstart : NoOwnProposal ((ofEngine engine).step .runConsensusRound) := by
      intro p hp
      rcases List.mem_append.mp hp with hp | hp
      · exact hqueue p hp
      · cases hp
    apply performs_of_noOwnProposal (noOwnProposal_run hstart hnever k)
    rwa [activeValidators_run]

end Machine

namespace FourValidators

/-- A prevote, a proposal for round 0 and a view change, from the newest on. -/
def queued : List ConsensusMessage :=
  [.prevote (prevote 0 (some (block 1))), .proposal (proposalOf (block 1)),
    .viewChange ⟨1, ⟨0⟩, validator 0, ⟨[]⟩⟩]

def queuedEngine (n : UInt8) : ConsensusEngine :=
  { newConsensusEngine ⟨0⟩ ⟨1000⟩ ⟨List.replicate 32 9⟩ (validator n) vset with
    ceMsgQueue := queued }

def quorums : Answers :=
  { silence with
    prevotes := prevotesOn (block 1)
    viewChanges := [0, 1, 2].map fun n => ⟨1, ⟨0⟩, validator n, ⟨[]⟩⟩ }

end FourValidators

open FourValidators in
/-- The fourth validator applies the prevote, with which it precommits, prevotes the proposal,
and changes to round 1, where it applies its own two votes and precommits once more. It
proposes in neither round. -/
theorem runConsensusRound_returns_queued :
    activeValidators (queuedEngine 3).ceState.csValidatorSet ≠ [] ∧
      (Runs.run Machine.resume ((Machine.ofEngine (queuedEngine 3)).step .runConsensusRound)
          (Runs.first (fun _ => quorums) 7)).drained =
        [.prevote (prevoteMsg (queuedEngine 3) (some (block 1))),
          .precommit (precommitMsg (queuedEngine 3) (some (block 1)))] ++ queued ∧
      Machine.Returns ((Machine.ofEngine (queuedEngine 3)).step .runConsensusRound)
        fun _ => quorums := by
  have hactive : activeValidators (queuedEngine 3).ceState.csValidatorSet ≠ [] := by decide
  have hdone : (Runs.run Machine.resume
      ((Machine.ofEngine (queuedEngine 3)).step .runConsensusRound)
      (Runs.first (fun _ => quorums) 7)).pending = [] := by decide +kernel
  refine ⟨hactive, by decide +kernel,
    (Machine.runConsensusRound_returns_iff _ hactive _).2.mpr ⟨?_, ?_⟩⟩
  · intro p
    simp [queuedEngine, queued]
  · refine Machine.not_proposes_of_done hdone ?_
    decide +kernel

open FourValidators in
/-- The first validator proposes in round 0. The call ends in the second step, with an empty
queue and none of the three messages applied. -/
theorem runConsensusRound_loses_queued :
    activeValidators (queuedEngine 0).ceState.csValidatorSet ≠ [] ∧
      (Runs.run Machine.resume ((Machine.ofEngine (queuedEngine 0)).step .runConsensusRound)
        [quorums]).pending =
          (.ownProposal (ownProposal (queuedEngine 0)) :: queued).map .applyConsensusMessage ∧
      (Runs.run Machine.resume ((Machine.ofEngine (queuedEngine 0)).step .runConsensusRound)
        [quorums, quorums]).pending = [] ∧
      (Runs.run Machine.resume ((Machine.ofEngine (queuedEngine 0)).step .runConsensusRound)
        [quorums, quorums]).engine = { proposeBlock (queuedEngine 0) with ceMsgQueue := [] } ∧
      ¬ Machine.Returns ((Machine.ofEngine (queuedEngine 0)).step .runConsensusRound)
        fun _ => quorums := by
  have hproposes : Machine.Proposes (Runs.run Machine.resume
      ((Machine.ofEngine (queuedEngine 0)).step .runConsensusRound)
      (Runs.first (fun _ => quorums) 0)) := by decide
  exact ⟨by decide, by decide +kernel, by decide +kernel, by decide +kernel,
    Machine.not_returns_of_proposes hproposes⟩

end Consensus

end CryptoCoin
