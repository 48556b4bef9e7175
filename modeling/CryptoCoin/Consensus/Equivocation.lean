import CryptoCoin.Consensus.Finality

/-!
# Votes over whole runs

An engine does not record which votes it has sent, and neither `handleProposal` nor
`handlePrevote` looks at the step the engine is in. Every accepted proposal is
prevoted, and every polka found is precommitted. So a run from a new engine is free
of equivocation exactly when the votes are asked for consistently: accepted
proposals of one round name one block, and the polkas found in one round have one
value. The rounds are those the engine is in, which may be entered more than once.
-/

namespace CryptoCoin

namespace Consensus

open Protocol (ValidatorId PrivateKey Timestamp)

/-- No two prevotes of one round and no two precommits of one round have different
values. -/
structure NoEquivocation (msgs : List ConsensusMessage) : Prop where
  prevotes : ∀ p q, .prevote p ∈ msgs → .prevote q ∈ msgs →
    p.prRound = q.prRound → p.prBlockHash = q.prBlockHash
  precommits : ∀ p q, .precommit p ∈ msgs → .precommit q ∈ msgs →
    p.pcRound = q.pcRound → p.pcBlockHash = q.pcBlockHash

namespace Machine

def Accepted (x : Machine × Input) (p : ProposalMsg) : Prop :=
  ∃ answers rest, x.2 = .resume answers ∧
    x.1.pending = .applyConsensusMessage (.proposal p) :: rest ∧ Accepts x.1.engine p

def SeesPolka (x : Machine × Input) (value : Option BlockHash) : Prop :=
  ∃ answers p rest, x.2 = .resume answers ∧
    x.1.pending = .applyConsensusMessage (.prevote p) :: rest ∧
    polka x.1.engine.ceState.csValidatorSet answers.prevotes = some value

/-- The votes that the steps ask for are consistent in each round. -/
structure AskedConsistently (trace : List (Machine × Input)) : Prop where
  proposals : ∀ x ∈ trace, ∀ y ∈ trace, ∀ p q, Accepted x p → Accepted y q →
    p.pmRound = q.pmRound → p.pmBlockHash = q.pmBlockHash
  polkas : ∀ x ∈ trace, ∀ y ∈ trace, ∀ v w, SeesPolka x v → SeesPolka y w →
    x.1.engine.ceState.csRound = y.1.engine.ceState.csRound → v = w

/-! ### The votes of one step -/

theorem Accepted.pmRound_eq {x : Machine × Input} {p : ProposalMsg} (h : Accepted x p) :
    p.pmRound = x.1.engine.ceState.csRound := by
  obtain ⟨_, _, _, _, hround, _⟩ := h
  exact hround

theorem effect_eq_prevote_iff (x : Machine × Input) (q : PrevoteMsg) :
    x.1.effect x.2 = .broadcast (.prevote q) ↔
      ∃ p, Accepted x p ∧ q = prevoteMsg x.1.engine (some p.pmBlockHash) := by
  constructor
  · intro h
    obtain ⟨answers, rest, hresume, ⟨p, hpending, haccepts, hmsg⟩ |
      ⟨p, value, hpending, hpolka, hmsg⟩ | ⟨hpending, hmsg⟩⟩ := effect_eq_broadcast h
    · exact ⟨p, ⟨answers, rest, hresume, hpending, haccepts⟩, ConsensusMessage.prevote.inj hmsg⟩
    · cases hmsg
    · cases hmsg
  · rintro ⟨p, ⟨answers, rest, hresume, hpending, haccepts⟩, rfl⟩
    rw [hresume, effect_resume hpending, Task.effect, if_pos haccepts]

theorem effect_eq_precommit_iff (x : Machine × Input) (q : PrecommitMsg) :
    x.1.effect x.2 = .broadcast (.precommit q) ↔
      ∃ value, SeesPolka x value ∧ q = precommitMsg x.1.engine value := by
  constructor
  · intro h
    obtain ⟨answers, rest, hresume, ⟨p, hpending, haccepts, hmsg⟩ |
      ⟨p, value, hpending, hpolka, hmsg⟩ | ⟨hpending, hmsg⟩⟩ := effect_eq_broadcast h
    · cases hmsg
    · exact ⟨value, ⟨answers, p, rest, hresume, hpending, hpolka⟩,
        ConsensusMessage.precommit.inj hmsg⟩
    · cases hmsg
  · rintro ⟨value, ⟨answers, p, rest, hresume, hpending, hpolka⟩, rfl⟩
    rw [hresume, effect_resume hpending]
    simp only [Task.effect, hpolka]

/-! ### The votes of a run -/

/-- What a run from an engine with an empty queue broadcasts, one of its steps
does. -/
theorem mem_broadcasts_run (engine : ConsensusEngine) (hqueue : engine.ceMsgQueue = [])
    (inputs : List Input) (msg : ConsensusMessage) :
    msg ∈ (Runs.run step (ofEngine engine) inputs).broadcasts ↔
      ∃ x ∈ Runs.trace step (ofEngine engine) inputs, x.1.effect x.2 = .broadcast msg := by
  have hlog : ∀ m i a, a ∈ (step m i).broadcasts ↔
      a ∈ (match m.effect i with
        | .broadcast msg => [msg]
        | _ => []) ∨ a ∈ m.broadcasts := by
    intro m i a
    have hstep : (step m i).broadcasts = ((m.effect i).apply m.observation).broadcasts :=
      congrArg Observation.broadcasts (observation_step m i)
    rw [hstep]
    cases m.effect i with
    | broadcast msg => simp [Effect.apply, observation, observe, broadcasts]
    | _ => simp [Effect.apply, observation, observe, broadcasts]
  rw [Runs.mem_log_run hlog]
  have hempty : (ofEngine engine).broadcasts = [] := by
    rw [broadcasts, ofEngine, hqueue, List.append_nil]
  rw [hempty]
  simp only [List.not_mem_nil, or_false]
  refine exists_congr ?_
  intro x
  refine and_congr_right ?_
  intro _
  cases x.1.effect x.2 with
  | broadcast msg' => simp [eq_comm]
  | _ => simp

/-- A run of a new engine is free of equivocation exactly when its steps ask for
consistent votes. -/
theorem noEquivocation_iff (now : Timestamp) (config : ConsensusConfig) (privKey : PrivateKey)
    (validator : ValidatorId) (vset : ValidatorSet) (inputs : List Input) :
    NoEquivocation (Runs.run step
        (ofEngine (newConsensusEngine now config privKey validator vset)) inputs).broadcasts ↔
      AskedConsistently (Runs.trace step
        (ofEngine (newConsensusEngine now config privKey validator vset)) inputs) := by
  have hmem := mem_broadcasts_run (newConsensusEngine now config privKey validator vset)
    rfl inputs
  constructor
  · intro h
    constructor
    · intro x hx y hy p q hp hq hround
      have hvote := h.prevotes _ _
        ((hmem _).mpr ⟨x, hx, (effect_eq_prevote_iff x _).mpr ⟨p, hp, rfl⟩⟩)
        ((hmem _).mpr ⟨y, hy, (effect_eq_prevote_iff y _).mpr ⟨q, hq, rfl⟩⟩)
      rw [hp.pmRound_eq, hq.pmRound_eq] at hround
      exact Option.some.inj (hvote hround)
    · intro x hx y hy v w hv hw hround
      exact h.precommits _ _
        ((hmem _).mpr ⟨x, hx, (effect_eq_precommit_iff x _).mpr ⟨v, hv, rfl⟩⟩)
        ((hmem _).mpr ⟨y, hy, (effect_eq_precommit_iff y _).mpr ⟨w, hw, rfl⟩⟩) hround
  · intro h
    constructor
    · intro p q hp hq hround
      obtain ⟨x, hx, heffectx⟩ := (hmem _).mp hp
      obtain ⟨y, hy, heffecty⟩ := (hmem _).mp hq
      obtain ⟨p', hp', rfl⟩ := (effect_eq_prevote_iff x p).mp heffectx
      obtain ⟨q', hq', rfl⟩ := (effect_eq_prevote_iff y q).mp heffecty
      have hblock := h.proposals x hx y hy p' q' hp' hq'
      rw [hp'.pmRound_eq, hq'.pmRound_eq] at hblock
      exact congrArg some (hblock hround)
    · intro p q hp hq hround
      obtain ⟨x, hx, heffectx⟩ := (hmem _).mp hp
      obtain ⟨y, hy, heffecty⟩ := (hmem _).mp hq
      obtain ⟨v, hv, rfl⟩ := (effect_eq_precommit_iff x p).mp heffectx
      obtain ⟨w, hw, rfl⟩ := (effect_eq_precommit_iff y q).mp heffecty
      exact h.polkas x hx y hy v w hv hw hround

end Machine

namespace FourValidators

def proposalOf (b : BlockHash) : ProposalMsg := ⟨b, ⟨0⟩, none, validator 0, ⟨[]⟩⟩

def prevotesOn (b : BlockHash) : List PrevoteMsg :=
  [0, 2, 3].map fun n => ⟨some b, ⟨0⟩, validator n, ⟨[]⟩⟩

/-- Two proposals of one proposer, and a prevote that arrives twice, once after three
prevotes for block 1 and once after three for block 2. -/
def doubleVotes : List Input :=
  [.applyConsensusMessage (.proposal (proposalOf (block 1))), .resume silence,
    .applyConsensusMessage (.proposal (proposalOf (block 2))), .resume silence,
    .applyConsensusMessage (.prevote (prevote 0 none)),
    .resume { silence with prevotes := prevotesOn (block 1) },
    .applyConsensusMessage (.prevote (prevote 0 none)),
    .resume { silence with prevotes := prevotesOn (block 2) }]

end FourValidators

open FourValidators in
/-- In round 0 the engine prevotes for both proposals and precommits to both
blocks. -/
theorem doubleVotes_equivocates :
    (Runs.run Machine.step (.ofEngine newEngine) doubleVotes).broadcasts =
        [.precommit (precommitMsg newEngine (some (block 2))),
          .precommit (precommitMsg newEngine (some (block 1))),
          .prevote (prevoteMsg newEngine (some (block 2))),
          .prevote (prevoteMsg newEngine (some (block 1)))] ∧
      ¬ NoEquivocation
        (Runs.run Machine.step (.ofEngine newEngine) doubleVotes).broadcasts := by
  have hsent : (Runs.run Machine.step (.ofEngine newEngine) doubleVotes).broadcasts =
      [.precommit (precommitMsg newEngine (some (block 2))),
        .precommit (precommitMsg newEngine (some (block 1))),
        .prevote (prevoteMsg newEngine (some (block 2))),
        .prevote (prevoteMsg newEngine (some (block 1)))] := by
    decide +kernel
  refine ⟨hsent, ?_⟩
  rw [hsent]
  intro h
  have hsame := h.prevotes (prevoteMsg newEngine (some (block 1)))
    (prevoteMsg newEngine (some (block 2))) (by simp) (by simp) rfl
  exact absurd hsame (by decide)

end Consensus

end CryptoCoin
