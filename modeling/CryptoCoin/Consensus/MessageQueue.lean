import CryptoCoin.Consensus.Termination

/-!
# The message queue

`broadcastMessage` puts a message in front of the queue, and `processMessages` takes the
whole queue and applies its messages from the front. While it does so, the handlers put
new messages into the queue, and a view change may take those out and apply them in
between.

`performed` lists the messages of the batch in the order in which a run applies them. It
is the batch from the front, up to a message that ends in an exception, so the messages
are applied in the reverse of the order in which they were broadcast
(`appliedInOrder_iff`).

Nothing is put back. A proposal for a later round is dropped like every other message,
and no run of `processMessages` leaves a proposal in the queue
(`early_proposal_lost`).
-/

namespace CryptoCoin

namespace Consensus

/-! ### Broadcasts -/

def broadcastAll (engine : ConsensusEngine) (msgs : List ConsensusMessage) : ConsensusEngine :=
  msgs.foldl broadcastMessage engine

theorem ceMsgQueue_broadcastAll (engine : ConsensusEngine) (msgs : List ConsensusMessage) :
    (broadcastAll engine msgs).ceMsgQueue = msgs.reverse ++ engine.ceMsgQueue := by
  induction msgs generalizing engine with
  | nil => rfl
  | cons msg msgs ih =>
      have hcons : broadcastAll engine (msg :: msgs) =
          broadcastAll (broadcastMessage engine msg) msgs := rfl
      rw [hcons, ih, List.reverse_cons, List.append_assoc]
      rfl

/-! ### One task -/

/-- The task is the engine's own proposal, or it asks for the proposer of the round and no
validator is active. -/
def Task.Fails (engine : ConsensusEngine) : Task → Prop
  | .runConsensusRound => activeValidators engine.ceState.csValidatorSet = []
  | .applyConsensusMessage (.proposal p) =>
      p.pmRound = engine.ceState.csRound ∧ activeValidators engine.ceState.csValidatorSet = []
  | .applyConsensusMessage (.ownProposal _) => True
  | .applyConsensusMessage _ => False

theorem isRoundProposer_eq_none_iff (round : ConsensusRound) (vset : ValidatorSet)
    (validator : Protocol.ValidatorId) :
    isRoundProposer round vset validator = none ↔ activeValidators vset = [] := by
  rw [isRoundProposer, shouldPropose, Option.map_eq_none_iff]
  constructor
  · intro hnone
    by_contra hsome
    exact roundProposer_ne_none round hsome hnone
  · intro hnone
    rw [roundProposer, hnone]
    rfl

theorem perform_eq_none_iff (answers : Answers) (engine : ConsensusEngine) (task : Task) :
    perform answers engine task = none ↔ task.Fails engine := by
  cases task with
  | runConsensusRound =>
      have hproposer := isRoundProposer_eq_none_iff engine.ceState.csRound
        engine.ceState.csValidatorSet engine.ceValidator
      rw [isRoundProposer] at hproposer
      rw [Task.Fails, ← hproposer]
      simp only [perform, runConsensusRound]
      split <;> simp_all
  | applyConsensusMessage msg =>
      cases msg with
      | proposal p =>
          rw [Task.Fails, ← isRoundProposer_eq_none_iff engine.ceState.csRound
            engine.ceState.csValidatorSet p.pmProposer]
          simp only [perform, applyConsensusMessage, ite_eq_left_iff, reduceCtorEq, imp_false,
            not_not]
      | ownProposal p => exact iff_of_true rfl trivial
      | _ => exact iff_of_false (Option.some_ne_none _) id

instance (engine : ConsensusEngine) (task : Task) : Decidable (task.Fails engine) :=
  decidable_of_iff _ (perform_eq_none_iff ⟨⟨0⟩, [], [], []⟩ engine task)

namespace Machine

/-! ### The order of a batch -/

/-- The tasks of a batch that a run performs, in their order. `waiting` of them are still to
be performed; they are the last of the pending tasks, and what a task of the batch ends in
comes before them. -/
def performed : ℕ → Machine → List Answers → List Task
  | _, _, [] => []
  | waiting, m, a :: answers =>
      if m.pending.length = waiting then
        m.pending.head?.toList ++ performed (waiting - 1) (m.resume a) answers
      else performed waiting (m.resume a) answers

theorem performed_of_pending_eq_nil {m : Machine} (h : m.pending = []) (waiting : ℕ)
    (answers : List Answers) : performed waiting m answers = [] := by
  induction answers generalizing waiting with
  | nil => rfl
  | cons a answers ih =>
      rw [performed, resume_of_pending_eq_nil h, ih, ih, h]
      exact ite_self []

theorem performed_cons {m : Machine} {task : Task} {batch : List Task}
    (h : m.pending = task :: batch) (a : Answers) (answers : List Answers) :
    performed (batch.length + 1) m (a :: answers) =
      task :: performed batch.length (m.resume a) answers := by
  rw [performed, h, List.length_cons, if_pos rfl]
  rfl

theorem performed_nested {m : Machine} {task : Task} {nested batch : List Task}
    (h : m.pending = task :: (nested ++ batch)) (a : Answers) (answers : List Answers) :
    performed batch.length m (a :: answers) = performed batch.length (m.resume a) answers := by
  rw [performed, h, if_neg]
  rw [List.length_cons, List.length_append]
  omega

theorem performed_isPrefix {m : Machine} {nested batch : List Task}
    (h : m.pending = nested ++ batch) (answers : List Answers) :
    performed batch.length m answers <+: batch := by
  induction answers generalizing m nested batch with
  | nil => exact List.nil_prefix
  | cons a answers ih =>
      cases nested with
      | nil =>
          cases batch with
          | nil => rw [performed_of_pending_eq_nil h]
          | cons task batch =>
              rw [List.length_cons, performed_cons h, List.prefix_cons_inj]
              cases hperform : perform a m.engine task with
              | none =>
                  rw [resume_of_perform_eq_none h hperform, performed_of_pending_eq_nil rfl]
                  exact List.nil_prefix
              | some result => exact ih (by rw [resume_of_perform_eq_some h hperform])
      | cons task nested =>
          rw [List.cons_append] at h
          rw [performed_nested h]
          cases hperform : perform a m.engine task with
          | none =>
              rw [resume_of_perform_eq_none h hperform, performed_of_pending_eq_nil rfl]
              exact List.nil_prefix
          | some result =>
              have hpending : (m.resume a).pending = result.2 ++ nested ++ batch := by
                rw [resume_of_perform_eq_some h hperform, List.append_assoc]
              exact ih hpending

end Machine

/-- A machine with the number of tasks of a batch that it has still to perform. -/
structure Batch where
  waiting : ℕ
  machine : Machine

namespace Batch

open Machine (performed performed_cons performed_nested performed_of_pending_eq_nil)

/-- How many tasks of the batch come after the next task. -/
def behind (b : Batch) : ℕ :=
  if b.machine.pending.length = b.waiting then b.waiting - 1 else b.waiting

def resume (b : Batch) (answers : Answers) : Batch := ⟨b.behind, b.machine.resume answers⟩

/-- When the next task fails, no task of the batch comes after it. -/
def FailsLast (b : Batch) : Prop :=
  ∀ task ∈ b.machine.pending.head?, task.Fails b.machine.engine → b.behind = 0

instance (b : Batch) : Decidable b.FailsLast :=
  inferInstanceAs (Decidable (∀ task ∈ _, _ → _))

theorem machine_run (b : Batch) (answers : List Answers) :
    (Runs.run resume b answers).machine = Runs.run Machine.resume b.machine answers := by
  induction answers generalizing b with
  | nil => rfl
  | cons a answers ih => rw [Runs.run_cons, ih, Runs.run_cons, resume]

theorem behind_cons {m : Machine} {task : Task} {batch : List Task}
    (h : m.pending = task :: batch) : behind ⟨batch.length + 1, m⟩ = batch.length := by
  rw [behind, if_pos (by rw [h, List.length_cons]), Nat.add_sub_cancel]

theorem behind_nested {m : Machine} {task : Task} {nested batch : List Task}
    (h : m.pending = task :: (nested ++ batch)) : behind ⟨batch.length, m⟩ = batch.length := by
  have hmore : m.pending.length ≠ batch.length := by
    rw [h, List.length_cons, List.length_append]
    omega
  exact if_neg hmore

theorem failsLast_of_pending_eq_nil {b : Batch} (h : b.machine.pending = []) : b.FailsLast := by
  intro task htask
  rw [h] at htask
  cases htask

theorem failsLast_iff_of_perform_eq_none {b : Batch} {answers : Answers} {task : Task}
    {rest : List Task} (hpending : b.machine.pending = task :: rest)
    (h : perform answers b.machine.engine task = none) : b.FailsLast ↔ b.behind = 0 := by
  rw [perform_eq_none_iff] at h
  simp [FailsLast, hpending, h]

theorem failsLast_of_perform_eq_some {b : Batch} {answers : Answers} {task : Task}
    {rest : List Task} {result : ConsensusEngine × List Task}
    (hpending : b.machine.pending = task :: rest)
    (h : perform answers b.machine.engine task = some result) : b.FailsLast := by
  have hperforms : ¬ task.Fails b.machine.engine := by
    rw [← perform_eq_none_iff answers, h]
    exact Option.some_ne_none result
  simp [FailsLast, hpending, hperforms]

theorem performed_eq_iff_of_pending_eq_nil {m : Machine} (h : m.pending = [])
    (batch : List Task) (answers : List Answers) :
    performed batch.length m answers = batch ↔
      batch = [] ∧ ∀ x ∈ Runs.trace resume ⟨batch.length, m⟩ answers, x.1.FailsLast := by
  have htrace : ∀ x ∈ Runs.trace resume ⟨batch.length, m⟩ answers, x.1.FailsLast := by
    intro x hx
    obtain ⟨pre, post, _, hpre⟩ := Runs.mem_trace_iff.mp hx
    apply failsLast_of_pending_eq_nil
    rw [hpre, machine_run, Machine.run_of_pending_eq_nil h, h]
  rw [performed_of_pending_eq_nil h, eq_comm, iff_self_and]
  exact fun _ => htrace

/-- A call that has ended has performed its whole batch exactly when no task has failed in
front of a task of the batch. -/
theorem performed_eq_iff {m : Machine} {nested batch : List Task}
    (h : m.pending = nested ++ batch) {answers : List Answers}
    (hdone : (Runs.run Machine.resume m answers).pending = []) :
    performed batch.length m answers = batch ↔
      ∀ x ∈ Runs.trace resume ⟨batch.length, m⟩ answers, x.1.FailsLast := by
  induction answers generalizing m nested batch with
  | nil =>
      rw [Runs.run_nil, h, List.append_eq_nil_iff] at hdone
      rw [hdone.2]
      exact iff_of_true rfl fun x hx => absurd hx List.not_mem_nil
  | cons a answers ih =>
      rw [Runs.run_cons] at hdone
      rw [Runs.trace, List.forall_mem_cons]
      cases nested with
      | nil =>
          cases batch with
          | nil =>
              rw [performed_eq_iff_of_pending_eq_nil h, Runs.trace, List.forall_mem_cons]
              exact and_iff_right rfl
          | cons task batch =>
              have hbehind := behind_cons h
              rw [List.length_cons, performed_cons h, List.cons_inj_right, resume, hbehind]
              cases hperform : perform a m.engine task with
              | none =>
                  rw [failsLast_iff_of_perform_eq_none h hperform, hbehind,
                    List.length_eq_zero_iff, performed_eq_iff_of_pending_eq_nil]
                  rw [Machine.resume_of_perform_eq_none h hperform]
              | some result =>
                  rw [and_iff_right (failsLast_of_perform_eq_some h hperform)]
                  exact ih (by rw [Machine.resume_of_perform_eq_some h hperform]) hdone
      | cons task nested =>
          rw [List.cons_append] at h
          have hbehind := behind_nested h
          rw [performed_nested h, resume, hbehind]
          cases hperform : perform a m.engine task with
          | none =>
              rw [failsLast_iff_of_perform_eq_none h hperform, hbehind,
                List.length_eq_zero_iff, performed_eq_iff_of_pending_eq_nil]
              rw [Machine.resume_of_perform_eq_none h hperform]
          | some result =>
              rw [and_iff_right (failsLast_of_perform_eq_some h hperform)]
              have hpending : (m.resume a).pending = result.2 ++ nested ++ batch := by
                rw [Machine.resume_of_perform_eq_some h hperform, List.append_assoc]
              exact ih hpending hdone

theorem failsLast_of_done {b : Batch} {answers : ℕ → Answers} {n : ℕ}
    (hdone : (Runs.run Machine.resume b.machine (Runs.first answers n)).pending = [])
    (hbefore : ∀ k < n, (Runs.run resume b (Runs.first answers k)).FailsLast) (k : ℕ) :
    (Runs.run resume b (Runs.first answers k)).FailsLast := by
  rcases Nat.lt_or_ge k n with hk | hk
  · exact hbefore k hk
  · apply failsLast_of_pending_eq_nil
    rw [machine_run, Machine.run_first_of_pending_eq_nil hdone hk, hdone]

theorem performed_first_eq_iff {m : Machine} {batch : List Task} (h : m.pending = batch)
    {answers : ℕ → Answers} {n : ℕ}
    (hdone : (Runs.run Machine.resume m (Runs.first answers n)).pending = []) :
    performed batch.length m (Runs.first answers n) = batch ↔
      ∀ k, (Runs.run resume ⟨batch.length, m⟩ (Runs.first answers k)).FailsLast := by
  have hstart : m.pending = [] ++ batch := h
  rw [performed_eq_iff hstart hdone]
  constructor
  · intro hfails
    apply failsLast_of_done hdone
    intro k hk
    exact hfails _ (Runs.mem_trace_first.mpr ⟨k, hk, rfl⟩)
  · intro hfails x hx
    obtain ⟨k, _, rfl⟩ := Runs.mem_trace_first.mp hx
    exact hfails k

end Batch

namespace Machine

/-! ### The order of application -/

def processing (engine : ConsensusEngine) : Machine :=
  ⟨(processMessages engine).1, (processMessages engine).2, engine.ceMsgQueue⟩

/-- After the broadcasts, a call of `processMessages` ends and has applied each of the
messages once and in the order of the broadcasts. -/
def AppliedInOrder (engine : ConsensusEngine) (msgs : List ConsensusMessage)
    (answers : ℕ → Answers) : Prop :=
  ∃ n, (Runs.run resume (processing (broadcastAll engine msgs))
      (Runs.first answers n)).pending = [] ∧
    performed msgs.length (processing (broadcastAll engine msgs)) (Runs.first answers n) =
      msgs.map .applyConsensusMessage

theorem pending_processing {engine : ConsensusEngine} (hqueue : engine.ceMsgQueue = [])
    (msgs : List ConsensusMessage) :
    (processing (broadcastAll engine msgs)).pending =
      msgs.reverse.map .applyConsensusMessage := by
  have hpending : (processing (broadcastAll engine msgs)).pending =
      (broadcastAll engine msgs).ceMsgQueue.map .applyConsensusMessage := rfl
  rw [hpending, ceMsgQueue_broadcastAll, hqueue, List.append_nil]

theorem map_applyConsensusMessage_injective :
    Function.Injective (List.map Task.applyConsensusMessage) :=
  List.map_injective_iff.mpr fun _ _ h => Task.applyConsensusMessage.inj h

theorem length_map_reverse (msgs : List ConsensusMessage) :
    (msgs.reverse.map Task.applyConsensusMessage).length = msgs.length := by
  rw [List.length_map, List.length_reverse]

/-- The messages are applied from the last broadcast on. -/
theorem AppliedInOrder.reverse_eq {engine : ConsensusEngine} (hqueue : engine.ceMsgQueue = [])
    {msgs : List ConsensusMessage} {answers : ℕ → Answers}
    (h : AppliedInOrder engine msgs answers) : msgs.reverse = msgs := by
  obtain ⟨n, _, hperformed⟩ := h
  have hstart : (processing (broadcastAll engine msgs)).pending =
      [] ++ msgs.reverse.map .applyConsensusMessage := pending_processing hqueue msgs
  have hprefix := performed_isPrefix hstart (Runs.first answers n)
  rw [length_map_reverse, hperformed] at hprefix
  have hsame := hprefix.eq_of_length (by rw [length_map_reverse, List.length_map])
  exact (map_applyConsensusMessage_injective hsame).symm

/-- The messages are applied in the order of the broadcasts exactly when they are the same
backwards and no task fails while one of them waits behind it. -/
theorem appliedInOrder_iff {engine : ConsensusEngine} (hqueue : engine.ceMsgQueue = [])
    (msgs : List ConsensusMessage) (answers : ℕ → Answers) :
    AppliedInOrder engine msgs answers ↔
      msgs.reverse = msgs ∧
        ∀ n, (Runs.run Batch.resume ⟨msgs.length, processing (broadcastAll engine msgs)⟩
          (Runs.first answers n)).FailsLast := by
  have hpending := pending_processing hqueue msgs
  have hbatch : ∀ n, (Runs.run resume (processing (broadcastAll engine msgs))
        (Runs.first answers n)).pending = [] →
      (performed msgs.length (processing (broadcastAll engine msgs)) (Runs.first answers n) =
          msgs.reverse.map .applyConsensusMessage ↔
        ∀ k, (Runs.run Batch.resume ⟨msgs.length, processing (broadcastAll engine msgs)⟩
          (Runs.first answers k)).FailsLast) := by
    intro n hdone
    have hperformed := Batch.performed_first_eq_iff hpending hdone
    rwa [length_map_reverse] at hperformed
  constructor
  · intro h
    have hreverse := h.reverse_eq hqueue
    obtain ⟨n, hdone, hperformed⟩ := h
    rw [hreverse] at hbatch
    exact ⟨hreverse, (hbatch n hdone).mp hperformed⟩
  · rintro ⟨hreverse, hfails⟩
    obtain ⟨n, hdone⟩ := exists_pending_eq_nil (processing (broadcastAll engine msgs)) answers
    rw [hreverse] at hbatch
    exact ⟨n, hdone, (hbatch n hdone).mpr hfails⟩

end Machine

namespace FourValidators

def newViews : List ConsensusMessage :=
  [1, 2].map fun n => .newView ⟨n, validator 0, ⟨[]⟩⟩

/-- A view change between two new views for round 2. -/
def turnings : List ConsensusMessage :=
  [.newView ⟨2, validator 0, ⟨[]⟩⟩, .viewChange ⟨3, ⟨2⟩, validator 0, ⟨[]⟩⟩,
    .newView ⟨2, validator 0, ⟨[]⟩⟩]

end FourValidators

open FourValidators in
/-- Three messages that are the same backwards are applied in order. The view change runs
round 3 in between, whose proposer is another validator. -/
theorem appliedInOrder_turnings :
    newEngine.ceMsgQueue = [] ∧
      (Runs.run Machine.resume (Machine.processing (broadcastAll newEngine turnings))
        (Runs.first (fun _ => quorums) 2)).pending =
          [.runConsensusRound, .applyConsensusMessage (.newView ⟨2, validator 0, ⟨[]⟩⟩)] ∧
      Machine.AppliedInOrder newEngine turnings fun _ => quorums := by
  have hdone : (Runs.run Machine.resume (Machine.processing (broadcastAll newEngine turnings))
      (Runs.first (fun _ => quorums) 4)).pending = [] := by decide +kernel
  refine ⟨rfl, by decide +kernel, (Machine.appliedInOrder_iff rfl _ _).mpr ⟨rfl, ?_⟩⟩
  refine Batch.failsLast_of_done hdone ?_
  decide +kernel

open FourValidators in
/-- Of two new views the second is applied first, and the engine ends in the first. -/
theorem newViews_not_appliedInOrder :
    newEngine.ceMsgQueue = [] ∧
      Machine.performed 2 (Machine.processing (broadcastAll newEngine newViews))
          [silence, silence] =
        newViews.reverse.map .applyConsensusMessage ∧
      (Runs.run Machine.resume (Machine.processing (broadcastAll newEngine newViews))
        [silence, silence]).engine.ceState.csRound = ⟨1⟩ ∧
      ¬ Machine.AppliedInOrder newEngine newViews fun _ => silence := by
  refine ⟨rfl, by decide, by decide, ?_⟩
  intro h
  exact absurd (h.reverse_eq rfl) (by decide)

/-! ### Early proposals -/

/-- A task empties the queue, leaves it, or adds a message that is not a proposal. -/
theorem ceMsgQueue_perform {answers : Answers} {engine engine' : ConsensusEngine} {task : Task}
    {tasks : List Task} (h : perform answers engine task = some (engine', tasks)) :
    engine'.ceMsgQueue = [] ∨ engine'.ceMsgQueue = engine.ceMsgQueue ∨
      ∃ msg, engine'.ceMsgQueue = msg :: engine.ceMsgQueue ∧ ∀ p, msg ≠ .proposal p := by
  cases task with
  | runConsensusRound =>
      left
      rcases runConsensusRound_cases h with ⟨_, hresult⟩ | ⟨_, hresult⟩
      · cases hresult
        rfl
      · cases hresult
        rfl
  | applyConsensusMessage msg =>
      right
      have hmessages : Machine.taskMessages tasks = [] := by
        rcases tasks_of_message h with rfl | rfl
        · rfl
        · rfl
      have hobserve := congrArg Observation.broadcasts (observe_perform answers engine [] h)
      simp only [observe, hmessages, List.append_nil] at hobserve
      rw [hobserve]
      cases heffect : (Task.applyConsensusMessage msg).effect answers engine with
      | broadcast sent =>
          refine Or.inr ⟨sent, rfl, ?_⟩
          rcases Task.effect_eq_broadcast answers engine heffect with
            ⟨_, _, _, rfl⟩ | ⟨_, _, _, _, rfl⟩ | ⟨htask, _⟩
          · exact fun p => ConsensusMessage.noConfusion
          · exact fun p => ConsensusMessage.noConfusion
          · cases htask
      | _ => exact Or.inl rfl

namespace Machine

def NoProposal (m : Machine) : Prop := ∀ p, .proposal p ∉ m.engine.ceMsgQueue

theorem noProposal_resume {m : Machine} (h : m.NoProposal) (answers : Answers) :
    (m.resume answers).NoProposal := by
  cases hpending : m.pending with
  | nil => rwa [resume_of_pending_eq_nil hpending]
  | cons task rest =>
      cases hperform : perform answers m.engine task with
      | none =>
          rw [resume_of_perform_eq_none hpending hperform]
          exact h
      | some result =>
          intro p
          have hqueue : (m.resume answers).engine = result.1 := by
            simp only [resume, hpending, hperform]
          rw [hqueue]
          rcases ceMsgQueue_perform hperform with hnil | hsame | ⟨msg, hcons, hmsg⟩
          · rw [hnil]
            exact List.not_mem_nil
          · rw [hsame]
            exact h p
          · rw [hcons, List.mem_cons, not_or]
            exact ⟨(hmsg p).symm, h p⟩

/-- Whatever a queue holds, no proposal is left in it after `processMessages` has emptied
it. -/
theorem noProposal_run (engine : ConsensusEngine) (answers : List Answers) :
    (Runs.run resume (processing engine) answers).NoProposal := by
  apply Runs.invariant (P := NoProposal)
  · intro p
    exact List.not_mem_nil
  · intro x _ h
    exact noProposal_resume h x.2

/-- A queued proposal for a later round is gone when `processMessages` has returned and its
round has still not come. -/
theorem early_proposal_lost (engine : ConsensusEngine) (p : ProposalMsg)
    (answers : List Answers) :
    .proposal p ∈ engine.ceMsgQueue →
      engine.ceState.csRound.unConsensusRound < p.pmRound.unConsensusRound →
      (Runs.run resume (processing engine) answers).pending = [] →
      (Runs.run resume (processing engine) answers).engine.ceState.csRound.unConsensusRound <
        p.pmRound.unConsensusRound →
      .proposal p ∉ (Runs.run resume (processing engine) answers).engine.ceMsgQueue := by
  intro _ _ _ _
  exact noProposal_run engine answers p

end Machine

namespace FourValidators

def earlyProposal : ProposalMsg :=
  proposalMsg ((newConsensusEngine ⟨0⟩ ⟨1000⟩ ⟨List.replicate 32 8⟩ (validator 2)
    vset).modifyState fun s => { s with csRound := ⟨2⟩ }) (block 1)

/-- The second validator's engine in round 0, with the proposal in its queue. -/
def earlyEngine : ConsensusEngine := broadcastMessage newEngine (.proposal earlyProposal)

end FourValidators

open FourValidators in
theorem earlyProposal_lost :
    (.proposal earlyProposal ∈ earlyEngine.ceMsgQueue ∧
        earlyEngine.ceState.csRound.unConsensusRound <
          earlyProposal.pmRound.unConsensusRound ∧
        (Runs.run Machine.resume (Machine.processing earlyEngine) [silence]).pending = [] ∧
        (Runs.run Machine.resume (Machine.processing earlyEngine)
            [silence]).engine.ceState.csRound.unConsensusRound <
          earlyProposal.pmRound.unConsensusRound) ∧
      .proposal earlyProposal ∉
        (Runs.run Machine.resume (Machine.processing earlyEngine)
          [silence]).engine.ceMsgQueue := by
  have hqueued : .proposal earlyProposal ∈ earlyEngine.ceMsgQueue := List.mem_cons_self
  have hfuture : earlyEngine.ceState.csRound.unConsensusRound <
      earlyProposal.pmRound.unConsensusRound := by decide
  have hdone : (Runs.run Machine.resume (Machine.processing earlyEngine) [silence]).pending =
      [] := by decide
  have hstill : (Runs.run Machine.resume (Machine.processing earlyEngine)
      [silence]).engine.ceState.csRound.unConsensusRound <
        earlyProposal.pmRound.unConsensusRound := by decide
  exact ⟨⟨hqueued, hfuture, hdone, hstill⟩,
    Machine.early_proposal_lost earlyEngine earlyProposal [silence] hqueued hfuture hdone hstill⟩

open FourValidators in
/-- The engine is still in round 0 and its queue is empty. -/
theorem earlyEngine_empties_queue :
    .proposal earlyProposal ∈ earlyEngine.ceMsgQueue ∧
      earlyEngine.ceState.csRound = ⟨0⟩ ∧ earlyProposal.pmRound = ⟨2⟩ ∧
      (Runs.run Machine.resume (Machine.processing earlyEngine) [silence]).pending = [] ∧
      (Runs.run Machine.resume (Machine.processing earlyEngine)
        [silence]).engine.ceState.csRound = ⟨0⟩ ∧
      (Runs.run Machine.resume (Machine.processing earlyEngine)
        [silence]).engine.ceMsgQueue = [] := by
  refine ⟨List.mem_cons_self, ?_⟩
  decide

end Consensus

end CryptoCoin
