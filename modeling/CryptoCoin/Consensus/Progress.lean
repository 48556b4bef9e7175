import CryptoCoin.Consensus.Validity

/-!
# A round without interference decides

In `Validity.lean` and `Agreement.lean` nothing has to happen. Here messages arrive: every
correct validator gets a proposal of the round's proposer, and every vote of the round that
a correct validator sends reaches all of them, in any order and any number of times. Then all
of them decide on the proposed block (`calm_run_decides`).

What has to stay away are timeouts and messages that name another block in this round. One
vote of a Byzantine validator is enough, because the handlers take the block of the first
vote in a quorum. Messages of other rounds do no harm.

The round may be any round, and what was before it any run, as long as the correct validators
enter it together and none of them is locked on another block.
-/

namespace CryptoCoin

namespace Consensus

open Protocol (ValidatorId Timestamp PrivateKey)

/-! ### Votes for one block -/

/-- Proposals and votes of the round are for the block. -/
def ConsensusMessage.Favours (r : ConsensusRound) (b : BlockHash) : ConsensusMessage → Prop
  | .proposal p => p.pmRound = r → p.pmBlockHash = b
  | .prevote p => p.prRound = r → p.prBlockHash = some b
  | .precommit p => p.pcRound = r → p.pcBlockHash = some b
  | _ => True

/-- The event brings no other block into the round, and does not end it. -/
def Event.Favours (r : ConsensusRound) (b : BlockHash) : Event → Prop
  | .propose _ block => block = b
  | .proposal _ p => (ConsensusMessage.proposal p).Favours r b
  | .prevote _ p => (ConsensusMessage.prevote p).Favours r b
  | .precommit _ p _ => (ConsensusMessage.precommit p).Favours r b
  | .commit _ _ => True
  | .timeout _ _ => False

theorem firstBlock_eq_of_forall {votes : List (Option BlockHash)} {b : BlockHash}
    (hne : votes ≠ []) (h : ∀ vote ∈ votes, vote = some b) : firstBlock votes = some b := by
  cases votes with
  | nil => exact absurd rfl hne
  | cons vote votes =>
      rw [h vote List.mem_cons_self]
      rfl

theorem exists_mem_firstPerSender {α : Type} (sender : α → ValidatorId) {l : List α} {a : α}
    (h : a ∈ l) : ∃ b ∈ firstPerSender sender l, sender b = sender a := by
  induction l with
  | nil => cases h
  | cons c l ih =>
      by_cases hsame : sender c = sender a
      · exact ⟨c, List.mem_cons_self, hsame⟩
      · rcases List.mem_cons.mp h with rfl | hl
        · exact absurd rfl hsame
        · obtain ⟨b, hb, hsender⟩ := ih hl
          refine ⟨b, List.mem_cons_of_mem c (List.mem_filter.mpr ⟨hb, ?_⟩), hsender⟩
          simpa [hsender] using Ne.symm hsame

theorem mem_prevoteSenders {node : Node} {r : ConsensusRound} {p : PrevoteMsg}
    (hp : p ∈ node.prevotes) (hround : p.prRound = r) :
    p.prSender ∈ prevoteSenders (node.collectPrevotes r) := by
  have hvote : p ∈ node.prevotes.filter fun q => q.prRound = r :=
    List.mem_filter.mpr ⟨hp, decide_eq_true hround⟩
  obtain ⟨q, hq, hsender⟩ := exists_mem_firstPerSender PrevoteMsg.prSender hvote
  rw [prevoteSenders, List.mem_toFinset, ← hsender]
  exact List.mem_map_of_mem hq

theorem mem_precommitSenders {node : Node} {r : ConsensusRound} {p : PrecommitMsg}
    (hp : p ∈ node.precommits) (hround : p.pcRound = r) :
    p.pcSender ∈ precommitSenders (node.collectPrecommits r) := by
  have hvote : p ∈ node.precommits.filter fun q => q.pcRound = r :=
    List.mem_filter.mpr ⟨hp, decide_eq_true hround⟩
  obtain ⟨q, hq, hsender⟩ := exists_mem_firstPerSender PrecommitMsg.pcSender hvote
  rw [precommitSenders, List.mem_toFinset, ← hsender]
  exact List.mem_map_of_mem hq

/-! ### Nodes -/

/-- The node of a validator in the round, with votes for the block only. It has sent a
precommit when it has a quorum of prevotes, and decided when it has one of precommits. -/
structure Node.Tracks (vset : ValidatorSet) (r : ConsensusRound) (b : BlockHash)
    (v : ValidatorId) (sent : List ConsensusMessage) (node : Node) : Prop where
  validatorSet : node.engine.ceState.csValidatorSet = vset
  validator : node.engine.ceValidator = v
  round : node.engine.ceState.csRound = r
  locked : ∀ h, node.engine.ceState.csLockedBlock = some h → h = b
  commit : CommitDecided node.engine.ceState
  prevotes : ∀ p ∈ node.prevotes, p.prRound = r → p.prBlockHash = some b
  precommits : ∀ p ∈ node.precommits, p.pcRound = r → p.pcBlockHash = some b
  polka : superMajority vset (prevoteSenders (node.collectPrevotes r)) = true →
    ∃ p, .precommit p ∈ sent ∧ p.pcSender = v ∧ p.pcRound = r
  quorum : superMajority vset (precommitSenders (node.collectPrecommits r)) = true →
    node.engine.ceState.csDecision = some b

section Tracks

variable {vset : ValidatorSet} {r : ConsensusRound} {b : BlockHash} {v : ValidatorId}
  {sent : List ConsensusMessage} {node : Node}

theorem Node.Tracks.mono (h : node.Tracks vset r b v sent) {more : List ConsensusMessage}
    (hsub : sent ⊆ more) : node.Tracks vset r b v more := by
  refine { h with polka := ?_ }
  intro hmaj
  obtain ⟨p, hp, hsender⟩ := h.polka hmaj
  exact ⟨p, hsub hp, hsender⟩

theorem Node.Tracks.keep (h : node.Tracks vset r b v sent) {engine' : ConsensusEngine}
    (hvset : engine'.ceState.csValidatorSet = node.engine.ceState.csValidatorSet)
    (hvalidator : engine'.ceValidator = node.engine.ceValidator)
    (hround : engine'.ceState.csRound = node.engine.ceState.csRound)
    (hlocked : engine'.ceState.csLockedBlock = node.engine.ceState.csLockedBlock)
    (hdecision : engine'.ceState.csDecision = node.engine.ceState.csDecision)
    (hcommit : CommitDecided engine'.ceState) :
    Node.Tracks vset r b v sent { node with engine := engine' } where
  validatorSet := hvset.trans h.validatorSet
  validator := hvalidator.trans h.validator
  round := hround.trans h.round
  locked block hblock := h.locked block (hlocked.symm.trans hblock)
  commit := hcommit
  prevotes := h.prevotes
  precommits := h.precommits
  polka := h.polka
  quorum hmaj := hdecision.trans (h.quorum hmaj)

/-- The node with what it broadcasts for an event: it goes on in the round, and its messages
are for the block. -/
structure Node.Responds (vset : ValidatorSet) (r : ConsensusRound) (b : BlockHash)
    (v : ValidatorId) (sent : List ConsensusMessage) (node : Node) : Prop where
  tracks : node.Tracks vset r b v (node.engine.ceMsgQueue ++ sent)
  favours : ∀ m ∈ node.engine.ceMsgQueue, m.Favours r b

theorem Node.Tracks.responds (h : node.Tracks vset r b v sent)
    (hqueue : node.engine.ceMsgQueue = []) : node.Responds vset r b v sent := by
  constructor
  · rw [hqueue]
    exact h
  · rw [hqueue]
    exact fun m hm => absurd hm List.not_mem_nil

theorem ne_nil_of_superMajority {α : Type} {votes : List α} {sender : α → ValidatorId}
    (h : superMajority vset (votes.map sender).toFinset = true) : votes ≠ [] := by
  rintro rfl
  rw [List.map_nil, List.toFinset_nil, superMajority_empty] at h
  cases h

section Handle

variable (h : node.Tracks vset r b v sent) (hqueue : node.engine.ceMsgQueue = [])

include h hqueue

theorem Node.Tracks.handle_propose (w : ValidatorId) :
    (node.handle (.propose w b)).Responds vset r b v sent := by
  have hkeep : Node.Tracks vset r b v sent { node with engine := proposeRealBlock node.engine b } :=
    h.keep rfl rfl rfl rfl rfl fun hstep => by cases hstep
  constructor
  · exact hkeep.mono (List.subset_append_right _ _)
  · intro m hm
    change m ∈ ConsensusMessage.proposal (proposalMsg node.engine b) :: node.engine.ceMsgQueue at hm
    rw [hqueue, List.mem_singleton] at hm
    rw [hm]
    exact fun _ => rfl

theorem Node.Tracks.handle_proposal (w : ValidatorId) {p : ProposalMsg}
    (hp : p.pmRound = r → p.pmBlockHash = b) :
    (node.handle (.proposal w p)).Responds vset r b v sent := by
  simp only [handle, handleProposal]
  split
  · next hvote =>
      have hkeep : Node.Tracks vset r b v sent
          { node with
            engine := (sendPrevote node.engine (some p.pmBlockHash)).modifyState fun s =>
              { s with csStep := .prevotePhase } } :=
        h.keep rfl rfl rfl rfl rfl fun hstep => by cases hstep
      constructor
      · exact hkeep.mono (List.subset_append_right _ _)
      · intro m hm
        change m ∈ ConsensusMessage.prevote (prevoteMsg node.engine (some p.pmBlockHash)) ::
          node.engine.ceMsgQueue at hm
        rw [hqueue, List.mem_singleton] at hm
        rw [hm]
        intro _
        exact congrArg some (hp (hvote.1.trans h.round))
  · exact h.responds hqueue

theorem Node.Tracks.handle_prevote (w : ValidatorId) {p : PrevoteMsg}
    (hp : p.prRound = r → p.prBlockHash = some b) :
    (node.handle (.prevote w p)).Responds vset r b v sent := by
  have hprevotes : ∀ q ∈ (node.receivePrevote p).prevotes, q.prRound = r →
      q.prBlockHash = some b := by
    intro q hq
    rcases List.mem_append.mp hq with hq | hq
    · exact h.prevotes q hq
    · rwa [List.mem_singleton.mp hq]
  have hvotes : ∀ q ∈ (node.receivePrevote p).collectPrevotes r, q.prBlockHash = some b := by
    intro q hq
    obtain ⟨hmem, hround⟩ := FaultModel.mem_collectPrevotes hq
    exact hprevotes q hmem hround
  by_cases hmaj : superMajority vset
      (prevoteSenders ((node.receivePrevote p).collectPrevotes r)) = true
  · have hfirst : firstBlock (((node.receivePrevote p).collectPrevotes
        node.engine.ceState.csRound).map PrevoteMsg.prBlockHash) = some b := by
      rw [h.round]
      exact firstBlock_eq_of_forall (List.map_eq_nil_iff.not.mpr (ne_nil_of_superMajority hmaj))
        (List.forall_mem_map.mpr hvotes)
    rw [Node.handle_prevote_eq_sendPrecommit w (by rwa [h.validatorSet, h.round]) hfirst]
    constructor
    · exact
        { validatorSet := h.validatorSet
          validator := h.validator
          round := h.round
          locked := fun block hblock => (Option.some.inj hblock).symm
          commit := fun hstep => by cases hstep
          prevotes := hprevotes
          precommits := h.precommits
          polka := fun _ =>
            ⟨_, List.mem_append_left _ List.mem_cons_self, h.validator, h.round⟩
          quorum := h.quorum }
    · intro m hm
      rcases List.mem_cons.mp hm with rfl | hm
      · exact fun _ => rfl
      · change m ∈ node.engine.ceMsgQueue at hm
        rw [hqueue] at hm
        cases hm
  · have hnil : prevotesFor ((node.receivePrevote p).collectPrevotes r) none = [] := by
      rw [prevotesFor, List.filter_eq_nil_iff]
      intro q hq
      simp [hvotes q hq]
    rw [Node.handle_prevote_eq_self w (by rwa [h.validatorSet, h.round])
      (by rw [h.validatorSet, h.round, hnil]; exact Bool.eq_false_iff.mp (superMajority_empty _))]
    exact Node.Tracks.responds
      { h with
        prevotes := hprevotes
        polka := fun hquorum => absurd hquorum hmaj } hqueue

theorem Node.Tracks.handle_precommit (w : ValidatorId) {p : PrecommitMsg} (now : Timestamp)
    (hp : p.pcRound = r → p.pcBlockHash = some b) :
    (node.handle (.precommit w p now)).Responds vset r b v sent := by
  have hprecommits : ∀ q ∈ (node.receivePrecommit p).precommits, q.pcRound = r →
      q.pcBlockHash = some b := by
    intro q hq
    rcases List.mem_append.mp hq with hq | hq
    · exact h.precommits q hq
    · rwa [List.mem_singleton.mp hq]
  have hvotes : ∀ q ∈ (node.receivePrecommit p).collectPrecommits r,
      q.pcBlockHash = some b := by
    intro q hq
    obtain ⟨hmem, hround⟩ := FaultModel.mem_collectPrecommits hq
    exact hprecommits q hmem hround
  by_cases hmaj : superMajority vset
      (precommitSenders ((node.receivePrecommit p).collectPrecommits r)) = true
  · have hfirst : firstBlock (((node.receivePrecommit p).collectPrecommits
        node.engine.ceState.csRound).map PrecommitMsg.pcBlockHash) = some b := by
      rw [h.round]
      exact firstBlock_eq_of_forall (List.map_eq_nil_iff.not.mpr (ne_nil_of_superMajority hmaj))
        (List.forall_mem_map.mpr hvotes)
    rw [Node.handle_precommit_eq_commitBlock w (by rwa [h.validatorSet, h.round]) hfirst]
    exact Node.Tracks.responds
      { validatorSet := h.validatorSet
        validator := h.validator
        round := h.round
        locked := h.locked
        commit := fun _ => rfl
        prevotes := h.prevotes
        precommits := hprecommits
        polka := h.polka
        quorum := fun _ => rfl } hqueue
  · rw [Node.handle_precommit_eq_self w (by rwa [h.validatorSet, h.round])]
    exact Node.Tracks.responds
      { h with
        precommits := hprecommits
        quorum := fun hquorum => absurd hquorum hmaj } hqueue

theorem Node.Tracks.handle_commit (w : ValidatorId) (c : CommitMsg) :
    (node.handle (.commit w c)).Responds vset r b v sent := by
  have hstate := ceState_handleCommit_eq_self h.commit c
  have hrest : (handleCommit node.engine c).ceValidator = node.engine.ceValidator ∧
      (handleCommit node.engine c).ceMsgQueue = node.engine.ceMsgQueue := by
    rw [handleCommit]
    split
    · exact ⟨rfl, rfl⟩
    · exact ⟨rfl, rfl⟩
  have hkeep : Node.Tracks vset r b v sent
      { node with engine := handleCommit node.engine c } := by
    refine h.keep ?_ hrest.1 ?_ ?_ ?_ ?_
    · rw [hstate]
    · rw [hstate]
    · rw [hstate]
    · rw [hstate]
    · rw [hstate]
      exact h.commit
  exact hkeep.responds (hrest.2.trans hqueue)

/-- An event that brings no other block keeps a node in the round. -/
theorem Node.Tracks.handle {e : Event} (he : e.Favours r b) :
    (node.handle e).Responds vset r b v sent := by
  cases e with
  | propose w block =>
      rw [show block = b from he]
      exact h.handle_propose hqueue w
  | proposal w p => exact h.handle_proposal hqueue w he
  | prevote w p => exact h.handle_prevote hqueue w he
  | precommit w p now => exact h.handle_precommit hqueue w now he
  | commit w c => exact h.handle_commit hqueue w c
  | timeout w now => exact absurd he id

end Handle

end Tracks

theorem ceValidator_handle (node : Node) (e : Event) :
    (node.handle e).engine.ceValidator = node.engine.ceValidator := by
  cases e with
  | propose v b => rfl
  | proposal v p =>
      simp only [Node.handle, handleProposal]
      split
      · rfl
      · rfl
  | prevote v p =>
      simp only [Node.handle, handlePrevote]
      split
      · rfl
      · split
        · rfl
        · rfl
  | precommit v p now =>
      simp only [Node.handle, handlePrecommit]
      split
      · split
        · rfl
        · rfl
      · rfl
  | commit v c =>
      simp only [Node.handle, handleCommit]
      split
      · rfl
      · rfl
  | timeout v now => rfl

/-! ### Systems -/

/-- The author of the message that an event delivers. Commits are left out: they change
nothing. -/
def Event.sender : Event → Option ValidatorId
  | .proposal _ p => some p.pmProposer
  | .prevote _ p => some p.prSender
  | .precommit _ p _ => some p.pcSender
  | _ => none

namespace FaultModel

variable (M : FaultModel)

def Correct (v : ValidatorId) : Prop :=
  M.byzantine v = false ∧ v ∈ M.vset.members.map Prod.fst

/-- The engine of a validator runs, no round ends, and what a Byzantine validator sends
brings no other block into the round. -/
def Calm (r : ConsensusRound) (b : BlockHash) (e : Event) : Prop :=
  e.target ∈ M.vset.members.map Prod.fst ∧
    ((∀ v, e.sender = some v → M.byzantine v = true) → e.Favours r b)

/-- The correct validators are in the round, with votes for the block only. -/
structure OnTrack (r : ConsensusRound) (b : BlockHash) (s : System) : Prop where
  sent : ∀ m ∈ s.sent, m.Favours r b
  nodes : ∀ v, M.Correct v → (s.nodes v).Tracks M.vset r b v s.sent
  queues : ∀ v, (s.nodes v).engine.ceMsgQueue = []

variable {M} {r : ConsensusRound} {b : BlockHash} {s : System}

theorem superMajority_of_correct {voters : Finset ValidatorId}
    (h : ∀ v, M.Correct v → v ∈ voters) : superMajority M.vset voters = true := by
  rw [superMajority_iff M.exact]
  have hcorrect : QuorumSystem.weight M.vset.members (fun v => ¬ M.byzantine v = true) ≤
      QuorumSystem.weight M.vset.members (· ∈ voters) := by
    apply QuorumSystem.weight_le_weight_of_mem
    intro m hm hbyz
    exact h m.1 ⟨Bool.eq_false_iff.mpr hbyz, List.mem_map_of_mem hm⟩
  have hsplit := QuorumSystem.weight_add_weight_not M.vset.members
    (p := fun v => M.byzantine v = true)
  have hminority := M.minority
  omega

theorem correct_of_calm {e : Event} (hadm : M.Admissible s e) (hcalm : M.Calm r b e) :
    M.Correct e.target := by
  refine ⟨?_, hcalm.1⟩
  cases e with
  | timeout v now => exact hadm
  | _ => exact hadm.1

theorem OnTrack.favours (h : M.OnTrack r b s) {e : Event} (hadm : M.Admissible s e)
    (hcalm : M.Calm r b e) : e.Favours r b := by
  by_cases hbyz : ∀ v, e.sender = some v → M.byzantine v = true
  · exact hcalm.2 hbyz
  · push Not at hbyz
    obtain ⟨v, hsender, hcorrect⟩ := hbyz
    -- a correct sender has sent the message before
    cases e with
    | proposal w p =>
        cases hsender
        exact h.sent _ (hadm.2.resolve_left hcorrect)
    | prevote w p =>
        cases hsender
        exact h.sent _ (hadm.2.resolve_left hcorrect)
    | precommit w p now =>
        cases hsender
        exact h.sent _ (hadm.2.resolve_left hcorrect)
    | _ => cases hsender

theorem OnTrack.after (h : M.OnTrack r b s) {e : Event} (hadm : M.Admissible s e)
    (hcalm : M.Calm r b e) : M.OnTrack r b (after s e) := by
  have hcorrect := correct_of_calm hadm hcalm
  obtain ⟨htracks, hfavours⟩ := (h.nodes e.target hcorrect).handle (h.queues e.target)
    (h.favours hadm hcalm)
  refine ⟨?_, ?_, ?_⟩
  · intro m hm
    rcases List.mem_append.mp hm with hm | hm
    · exact hfavours m hm
    · exact h.sent m hm
  · refine forall_nodes_after (P := fun v node =>
      M.Correct v → node.Tracks M.vset r b v (FaultModel.after s e).sent) ?_ ?_
    · exact fun _ => { htracks with }
    · exact fun v _ hv => (h.nodes v hv).mono (List.subset_append_right _ _)
  · exact forall_nodes_after (P := fun _ node => node.engine.ceMsgQueue = []) rfl
      fun v _ => h.queues v

theorem OnTrack.run (h : M.OnTrack r b s) {events : List Event} {s' : System}
    (hcalm : ∀ e ∈ events, M.Calm r b e) (hrun : M.run s events = some s') :
    M.OnTrack r b s' := by
  induction events generalizing s with
  | nil =>
      cases hrun
      exact h
  | cons e events ih =>
      obtain ⟨hadm, hrest⟩ := run_cons_eq_some hrun
      obtain ⟨hfirst, hcalm⟩ := List.forall_mem_cons.mp hcalm
      exact ih (h.after hadm hfirst) hcalm hrest

/-! ### What arrives stays -/

structure Grows (s s' : System) : Prop where
  sent : s.sent ⊆ s'.sent
  prevotes : ∀ v, (s.nodes v).prevotes ⊆ (s'.nodes v).prevotes
  precommits : ∀ v, (s.nodes v).precommits ⊆ (s'.nodes v).precommits

theorem prevotes_subset_handle (node : Node) (e : Event) :
    node.prevotes ⊆ (node.handle e).prevotes := by
  cases e with
  | prevote v p => exact List.subset_append_left _ _
  | _ => exact List.Subset.refl _

theorem precommits_subset_handle (node : Node) (e : Event) :
    node.precommits ⊆ (node.handle e).precommits := by
  cases e with
  | precommit v p now => exact List.subset_append_left _ _
  | _ => exact List.Subset.refl _

theorem grows_after (s : System) (e : Event) : Grows s (after s e) := by
  refine ⟨List.subset_append_right _ _, ?_, ?_⟩
  · exact forall_nodes_after (P := fun v node => (s.nodes v).prevotes ⊆ node.prevotes)
      (prevotes_subset_handle _ e) fun v _ => List.Subset.refl _
  · exact forall_nodes_after (P := fun v node => (s.nodes v).precommits ⊆ node.precommits)
      (precommits_subset_handle _ e) fun v _ => List.Subset.refl _

theorem Grows.trans {s s' s'' : System} (h : Grows s s') (h' : Grows s' s'') : Grows s s'' where
  sent := List.Subset.trans h.sent h'.sent
  prevotes v := List.Subset.trans (h.prevotes v) (h'.prevotes v)
  precommits v := List.Subset.trans (h.precommits v) (h'.precommits v)

theorem grows_run {events : List Event} {s' : System} (hrun : M.run s events = some s') :
    Grows s s' := by
  induction events generalizing s with
  | nil =>
      cases hrun
      exact ⟨List.Subset.refl _, fun _ => List.Subset.refl _, fun _ => List.Subset.refl _⟩
  | cons e events ih =>
      obtain ⟨_, hrest⟩ := run_cons_eq_some hrun
      exact (grows_after s e).trans (ih hrest)

theorem exists_moment {events : List Event} {e : Event} (he : e ∈ events) {s' : System}
    (hrun : M.run s events = some s') :
    ∃ pre post t, events = pre ++ e :: post ∧ M.run s pre = some t ∧ M.Admissible t e ∧
      Grows (after t e) s' := by
  induction events generalizing s with
  | nil => cases he
  | cons e' events ih =>
      obtain ⟨hadm, hrest⟩ := run_cons_eq_some hrun
      rcases List.mem_cons.mp he with rfl | hlater
      · exact ⟨[], events, s, rfl, rfl, hadm, grows_run hrest⟩
      · obtain ⟨pre, post, t, rfl, hpre, hmoment, hgrows⟩ := ih hlater hrest
        refine ⟨e' :: pre, post, t, rfl, ?_, hmoment, hgrows⟩
        exact Option.bind_eq_some_iff.mpr ⟨_, step_eq_some_iff.mpr ⟨hadm, rfl⟩, hpre⟩

section Delivery

variable {events : List Event} {s' : System} {v : ValidatorId}

theorem mem_prevotes_of_delivered {p : PrevoteMsg} (he : .prevote v p ∈ events)
    (hrun : M.run s events = some s') : p ∈ (s'.nodes v).prevotes := by
  obtain ⟨_, _, t, _, _, _, hgrows⟩ := exists_moment he hrun
  apply hgrows.prevotes v
  change p ∈ (Function.update t.nodes v _ v : Node).prevotes
  rw [Function.update_self]
  exact List.mem_append_right _ List.mem_cons_self

theorem mem_precommits_of_delivered {p : PrecommitMsg} {now : Timestamp}
    (he : .precommit v p now ∈ events) (hrun : M.run s events = some s') :
    p ∈ (s'.nodes v).precommits := by
  obtain ⟨_, _, t, _, _, _, hgrows⟩ := exists_moment he hrun
  apply hgrows.precommits v
  change p ∈ (Function.update t.nodes v _ v : Node).precommits
  rw [Function.update_self]
  exact List.mem_append_right _ List.mem_cons_self

/-- A proposal of the round's proposer gets a prevote. -/
theorem OnTrack.exists_prevote (h : M.OnTrack r b s) (hcalm : ∀ e ∈ events, M.Calm r b e)
    (hrun : M.run s events = some s') {p : ProposalMsg} (he : .proposal v p ∈ events)
    (hround : p.pmRound = r) (hproposer : isRoundProposer r M.vset p.pmProposer = some true) :
    ∃ q, .prevote q ∈ s'.sent ∧ q.prSender = v ∧ q.prRound = r := by
  obtain ⟨pre, post, t, rfl, hpre, hadm, hgrows⟩ := exists_moment he hrun
  have hthen : M.OnTrack r b t := h.run (fun e hmem => hcalm e (by simp [hmem])) hpre
  have hnow := hcalm _ he
  have htracks := hthen.nodes v (correct_of_calm hadm hnow)
  have hblock : p.pmBlockHash = b := hthen.favours hadm hnow hround
  have hvote : shouldVote (t.nodes v).engine.ceState p = true := by
    rw [shouldVote]
    cases hlock : (t.nodes v).engine.ceState.csLockedBlock with
    | none => rfl
    | some block => simp [hblock, htracks.locked block hlock]
  refine ⟨prevoteMsg (t.nodes v).engine (some p.pmBlockHash), hgrows.sent ?_,
    htracks.validator, htracks.round⟩
  apply List.mem_append_left
  change _ ∈ (handleProposal (t.nodes v).engine p).ceMsgQueue
  rw [handleProposal_eq_sendPrevote (hround.trans htracks.round.symm)
    (by rwa [htracks.round, htracks.validatorSet]) hvote]
  exact List.mem_cons_self

end Delivery

end FaultModel

def Event.Delivers (v : ValidatorId) (m : ConsensusMessage) : Event → Prop
  | .prevote w p => w = v ∧ m = .prevote p
  | .precommit w p _ => w = v ∧ m = .precommit p
  | _ => False

def ConsensusMessage.voteRound : ConsensusMessage → Option ConsensusRound
  | .prevote p => some p.prRound
  | .precommit p => some p.pcRound
  | _ => none

namespace FaultModel

variable {M : FaultModel} {r : ConsensusRound} {b : BlockHash} {s s' : System}
  {events : List Event}

theorem OnTrack.decides (h : M.OnTrack r b s) (hcalm : ∀ e ∈ events, M.Calm r b e)
    (hrun : M.run s events = some s')
    (hproposal : ∀ v, M.Correct v → ∃ p, .proposal v p ∈ events ∧ p.pmRound = r ∧
      isRoundProposer r M.vset p.pmProposer = some true)
    (hvotes : ∀ m ∈ s'.sent, m.voteRound = some r → ∀ v, M.Correct v →
      ∃ e ∈ events, e.Delivers v m) {v : ValidatorId} (hv : M.Correct v) :
    (s'.nodes v).engine.ceState.csDecision = some b := by
  have hend := h.run hcalm hrun
  have hprevote : ∀ w, M.Correct w →
      ∃ q, .prevote q ∈ s'.sent ∧ q.prSender = w ∧ q.prRound = r := by
    intro w hw
    obtain ⟨p, hp, hround, hproposer⟩ := hproposal w hw
    exact h.exists_prevote hcalm hrun hp hround hproposer
  have hprecommit : ∀ w, M.Correct w →
      ∃ q, .precommit q ∈ s'.sent ∧ q.pcSender = w ∧ q.pcRound = r := by
    intro w hw
    apply (hend.nodes w hw).polka
    apply superMajority_of_correct
    intro u hu
    obtain ⟨q, hq, rfl, hround⟩ := hprevote u hu
    obtain ⟨e, he, hdelivers⟩ := hvotes _ hq (congrArg some hround) w hw
    cases e with
    | prevote w' q' =>
        obtain ⟨rfl, hsame⟩ := hdelivers
        cases hsame
        exact mem_prevoteSenders (mem_prevotes_of_delivered he hrun) hround
    | precommit w' q' now => cases hdelivers.2
    | _ => exact absurd hdelivers id
  apply (hend.nodes v hv).quorum
  apply superMajority_of_correct
  intro u hu
  obtain ⟨q, hq, rfl, hround⟩ := hprecommit u hu
  obtain ⟨e, he, hdelivers⟩ := hvotes _ hq (congrArg some hround) v hv
  cases e with
  | prevote w' q' => cases hdelivers.2
  | precommit w' q' now =>
      obtain ⟨rfl, hsame⟩ := hdelivers
      cases hsame
      exact mem_precommitSenders (mem_precommits_of_delivered he hrun) hround
  | _ => exact absurd hdelivers id

/-! ### The start of a round -/

variable (M) in
/-- The correct validators are in the round and not locked on another block. No vote of the
round has been delivered to them, and no message of the round names another block. -/
structure Fresh (r : ConsensusRound) (b : BlockHash) (s : System) : Prop where
  sent : ∀ m ∈ s.sent, m.Favours r b
  round : ∀ v, M.Correct v → (s.nodes v).engine.ceState.csRound = r
  locked : ∀ v, M.Correct v → ∀ h, (s.nodes v).engine.ceState.csLockedBlock = some h → h = b
  prevotes : ∀ v, M.Correct v → ∀ p ∈ (s.nodes v).prevotes, p.prRound ≠ r
  precommits : ∀ v, M.Correct v → ∀ p ∈ (s.nodes v).precommits, p.pcRound ≠ r

/-- Between events the engines have their names and empty queues. -/
def Settled (s : System) : Prop :=
  ∀ v, (s.nodes v).engine.ceValidator = v ∧ (s.nodes v).engine.ceMsgQueue = []

theorem Settled.after (h : Settled s) (e : Event) : Settled (after s e) :=
  forall_nodes_after
    (P := fun v node => node.engine.ceValidator = v ∧ node.engine.ceMsgQueue = [])
    ⟨(ceValidator_handle _ e).trans (h e.target).1, rfl⟩ fun v _ => h v

theorem Settled.run (h : Settled s) (hrun : M.run s events = some s') : Settled s' := by
  induction events generalizing s with
  | nil =>
      cases hrun
      exact h
  | cons e events ih =>
      obtain ⟨_, hrest⟩ := run_cons_eq_some hrun
      exact ih (h.after e) hrest

theorem Fresh.onTrack (h : M.Fresh r b s) (hsettled : Settled s) (hbacked : M.Backed s) :
    M.OnTrack r b s := by
  refine ⟨h.sent, ?_, fun v => (hsettled v).2⟩
  intro v hv
  have hprevotes : (s.nodes v).collectPrevotes r = [] := by
    apply List.eq_nil_iff_forall_not_mem.mpr
    intro p hp
    obtain ⟨hmem, hround⟩ := mem_collectPrevotes hp
    exact h.prevotes v hv p hmem hround
  have hprecommits : (s.nodes v).collectPrecommits r = [] := by
    apply List.eq_nil_iff_forall_not_mem.mpr
    intro p hp
    obtain ⟨hmem, hround⟩ := mem_collectPrecommits hp
    exact h.precommits v hv p hmem hround
  exact
    { validatorSet := (hbacked.nodes v).validatorSet
      validator := (hsettled v).1
      round := h.round v hv
      locked := h.locked v hv
      commit := (hbacked.nodes v).commit
      prevotes := fun p hp hround => absurd hround (h.prevotes v hv p hp)
      precommits := fun p hp hround => absurd hround (h.precommits v hv p hp)
      polka := by
        intro hmaj
        rw [hprevotes] at hmaj
        exact absurd hmaj (Bool.eq_false_iff.mp (superMajority_empty _))
      quorum := by
        intro hmaj
        rw [hprecommits] at hmaj
        exact absurd hmaj (Bool.eq_false_iff.mp (superMajority_empty _)) }

end FaultModel

/-- From every state that a run can reach and in which the correct validators start a round
together, without a lock on another block: in every calm run, in which each of them gets a
proposal of the round's proposer and every vote of the round that was sent, all of them decide
on the block. -/
theorem calm_run_decides (M : FaultModel) (now : Timestamp)
    (config : ValidatorId → ConsensusConfig) (privKey : ValidatorId → PrivateKey)
    {before events : List Event} {s₀ s : System} {r : ConsensusRound} {b : BlockHash}
    (hbefore : M.run (System.init now config privKey M.vset) before = some s₀)
    (hfresh : M.Fresh r b s₀) (hrun : M.run s₀ events = some s)
    (hcalm : ∀ e ∈ events, M.Calm r b e)
    (hproposal : ∀ v, M.Correct v → ∃ p, .proposal v p ∈ events ∧ p.pmRound = r ∧
      isRoundProposer r M.vset p.pmProposer = some true)
    (hvotes : ∀ m ∈ s.sent, m.voteRound = some r → ∀ v, M.Correct v →
      ∃ e ∈ events, e.Delivers v m) {v : ValidatorId} (hv : M.Correct v) :
    (s.nodes v).engine.ceState.csDecision = some b := by
  have hsettled : FaultModel.Settled (System.init now config privKey M.vset) :=
    fun _ => ⟨rfl, rfl⟩
  have htrack := hfresh.onTrack (hsettled.run hbefore)
    ((M.backed_init now config privKey).run hbefore)
  exact htrack.decides hcalm hrun hproposal hvotes hv

namespace FourValidators

def others : List UInt8 := [1, 2, 3]

/-- The proposer of round 0 proposes one block to the others and is silent from then on. -/
def calmRound (x : BlockHash) : List Event :=
  others.map (fun n => .proposal (validator n) (proposalMsg (start 0) x)) ++
    (others.flatMap (fun n => deliverPrevotes n (others.map fun k => (k, x))) ++
      others.flatMap fun n => deliverPrecommits n (others.map fun k => (k, x)))

def calmVotes (x : BlockHash) : List ConsensusMessage :=
  others.map (fun k => .prevote (prevoteMsg (start k) (some x))) ++
    others.map fun k => .precommit (precommitMsg (start k) (some x))

theorem correct_iff {v : ValidatorId} :
    faultModel.Correct v ↔ ∃ n ∈ others, v = validator n := by
  have hmembers : faultModel.vset.members.map Prod.fst = (0 :: others).map validator := by decide
  have hfirst : validator 0 ∉ others.map validator := by decide
  rw [FaultModel.Correct, hmembers]
  constructor
  · rintro ⟨hcorrect, hmem⟩
    obtain ⟨n, hn, rfl⟩ := List.mem_map.mp hmem
    rcases List.mem_cons.mp hn with rfl | hn
    · cases hcorrect
    · exact ⟨n, hn, rfl⟩
  · rintro ⟨n, hn, rfl⟩
    refine ⟨decide_eq_false ?_, List.mem_map_of_mem (List.mem_cons_of_mem 0 hn)⟩
    intro hsame
    exact hfirst (hsame ▸ List.mem_map_of_mem hn)

theorem prevote_mem_calmRound (x : BlockHash) {n k : UInt8} (hn : n ∈ others) (hk : k ∈ others) :
    .prevote (validator n) (prevoteMsg (start k) (some x)) ∈ calmRound x := by
  apply List.mem_append_right
  apply List.mem_append_left
  exact List.mem_flatMap.mpr ⟨n, hn, List.mem_map.mpr ⟨(k, x), List.mem_map_of_mem hk, rfl⟩⟩

theorem precommit_mem_calmRound (x : BlockHash) {n k : UInt8} (hn : n ∈ others)
    (hk : k ∈ others) :
    .precommit (validator n) (precommitMsg (start k) (some x)) ⟨0⟩ ∈ calmRound x := by
  apply List.mem_append_right
  apply List.mem_append_right
  exact List.mem_flatMap.mpr ⟨n, hn, List.mem_map.mpr ⟨(k, x), List.mem_map_of_mem hk, rfl⟩⟩

theorem calm_calmRound (x : BlockHash) : ∀ e ∈ calmRound x, faultModel.Calm ⟨0⟩ x e := by
  have hvalidator : ∀ n ∈ others, validator n ∈ faultModel.vset.members.map Prod.fst :=
    fun n hn => (correct_iff.mpr ⟨n, hn, rfl⟩).2
  intro e he
  rcases List.mem_append.mp he with hproposal | hvote
  · obtain ⟨n, hn, rfl⟩ := List.mem_map.mp hproposal
    exact ⟨hvalidator n hn, fun _ _ => rfl⟩
  · rcases List.mem_append.mp hvote with hprevote | hprecommit
    · obtain ⟨n, hn, hsent⟩ := List.mem_flatMap.mp hprevote
      obtain ⟨vote, hvotes, rfl⟩ := List.mem_map.mp hsent
      obtain ⟨k, _, rfl⟩ := List.mem_map.mp hvotes
      exact ⟨hvalidator n hn, fun _ _ => rfl⟩
    · obtain ⟨n, hn, hsent⟩ := List.mem_flatMap.mp hprecommit
      obtain ⟨vote, hvotes, rfl⟩ := List.mem_map.mp hsent
      obtain ⟨k, _, rfl⟩ := List.mem_map.mp hvotes
      exact ⟨hvalidator n hn, fun _ _ => rfl⟩

theorem fresh_initial (x : BlockHash) : faultModel.Fresh ⟨0⟩ x initial where
  sent m hm := absurd hm List.not_mem_nil
  round _ _ := rfl
  locked _ _ _ hlocked := by cases hlocked
  prevotes _ _ p hp := absurd hp List.not_mem_nil
  precommits _ _ p hp := absurd hp List.not_mem_nil

end FourValidators

open FourValidators in
/-- The three correct validators decide in the first round. -/
theorem calm_run_decides_calmRound :
    ∃ s, faultModel.run initial (calmRound (block 1)) = some s ∧
      ∀ n ∈ others, decision s n = some (block 1) := by
  have hsent : (faultModel.run initial (calmRound (block 1))).map
      (fun s => s.sent.all fun m => m ∈ calmVotes (block 1)) = some true := by decide +kernel
  obtain ⟨s, hrun, hall⟩ := Option.map_eq_some_iff.mp hsent
  have hbefore : faultModel.run initial [] = some initial := rfl
  refine ⟨s, hrun, ?_⟩
  intro n hn
  refine calm_run_decides faultModel ⟨0⟩ (fun _ => ⟨1000⟩)
    (fun v => ⟨v.address.bytes ++ List.replicate 12 0⟩) hbefore (fresh_initial (block 1)) hrun
    (calm_calmRound (block 1)) ?_ ?_ (correct_iff.mpr ⟨n, hn, rfl⟩)
  · intro v hv
    obtain ⟨k, hk, rfl⟩ := correct_iff.mp hv
    exact ⟨proposalMsg (start 0) (block 1),
      List.mem_append_left _ (List.mem_map.mpr ⟨k, hk, rfl⟩), rfl, by decide⟩
  · intro m hm _ v hv
    obtain ⟨k, hk, rfl⟩ := correct_iff.mp hv
    have hvote := of_decide_eq_true (List.all_eq_true.mp hall m hm)
    rcases List.mem_append.mp hvote with hprevote | hprecommit
    · obtain ⟨j, hj, rfl⟩ := List.mem_map.mp hprevote
      exact ⟨_, prevote_mem_calmRound (block 1) hk hj, rfl, rfl⟩
    · obtain ⟨j, hj, rfl⟩ := List.mem_map.mp hprecommit
      exact ⟨_, precommit_mem_calmRound (block 1) hk hj, rfl, rfl⟩

end Consensus

end CryptoCoin
