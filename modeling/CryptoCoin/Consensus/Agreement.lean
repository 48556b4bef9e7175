import CryptoCoin.Consensus.Invariant

/-!
# Agreement of the engines

Each handler keeps the invariant of the network when its step meets `SoundStep`,
with one lemma per event; over whole runs the decisions of correct engines then
agree, at whatever times they are made.

Without the condition the engines do not agree: the last section has a run of
four validators, one of them Byzantine, in which two correct engines decide on
different blocks in round 0.
-/

namespace CryptoCoin

namespace Consensus

open Protocol (ValidatorId Timestamp PrivateKey)
open VoteHistory (Polka Commit Disciplined)

namespace FaultModel

variable {M : FaultModel} {s : System}

def after (s : System) (e : Event) : System :=
  { nodes := Function.update s.nodes e.target ((s.nodes e.target).handle e).flush
    sent := ((s.nodes e.target).handle e).engine.ceMsgQueue ++ s.sent }

/-! ### Proposals -/

theorem invariant_propose (h : M.Invariant s) (v : ValidatorId) (b : BlockHash) :
    M.Invariant (after s (.propose v b)) := by
  have hv := h.nodes v
  refine h.update_quiet ?_ ?_
  · intro m hm
    change m ∈ ConsensusMessage.proposal (proposalMsg (s.nodes v).engine b) ::
      (s.nodes v).engine.ceMsgQueue at hm
    rw [hv.queue, List.mem_singleton] at hm
    exact ⟨_, hm⟩
  · exact ⟨hv.validatorSet, hv.validator, rfl, hv.prevotes, hv.precommits, hv.rounds, hv.locked,
      hv.precommitted, hv.decided, by rintro ⟨⟩⟩

/-- A proposal that the engine votes for has a polka from the locked round on. -/
theorem exists_polka_of_lock (h : M.Invariant s) {v : ValidatorId} {p : ProposalMsg}
    (hshould : shouldVote (s.nodes v).engine.ceState p = true)
    (hlock : (s.nodes v).engine.ceState.csLockedBlock = none ∨
      (s.nodes v).engine.ceState.csLockedBlock = some p.pmBlockHash ∨
      M.ValidRoundBacked s p.pmBlockHash p.pmValidRound)
    {l : BlockHash} {lr : ConsensusRound}
    (hl : (s.nodes v).engine.ceState.csLockedBlock = some l)
    (hlr : (s.nodes v).engine.ceState.csLockedRound = some lr) :
    ∃ r, lr.unConsensusRound.toNat ≤ r ∧
      Polka M.quorums (voteHistory s.sent) p.pmBlockHash r := by
  by_cases hsame : l = p.pmBlockHash
  · -- the lock itself is the quorum to point to
    obtain ⟨lr', hlr', hpolka⟩ := (h.nodes v).locked l hl
    rw [hlr, Option.some.injEq] at hlr'
    subst hlr' hsame
    exact ⟨_, le_rfl, hpolka⟩
  · rcases hlock with hnone | hsome | hbacked
    · rw [hl] at hnone
      cases hnone
    · rw [hl, Option.some.injEq] at hsome
      exact absurd hsome hsame
    · cases hvr : p.pmValidRound with
      | none =>
          rw [hvr] at hbacked
          exact hbacked.elim
      | some vr =>
          rw [hvr] at hbacked
          have hlater : laterRound (some vr) (some lr) = true := by
            simp only [shouldVote, hl, hlr, hvr] at hshould
            simpa [Ne.symm hsame] using hshould
          have hlt : lr.unConsensusRound < vr.unConsensusRound := of_decide_eq_true hlater
          exact ⟨_, (UInt64.lt_iff_toNat_lt.mp hlt).le, M.polka_of_hasPolka hbacked⟩

/-- The prevote for a proposal is allowed by the locking rule. -/
theorem allowed_prevote (h : M.Invariant s) {v : ValidatorId} {p : ProposalMsg}
    (hshould : shouldVote (s.nodes v).engine.ceState p = true)
    (honly : ∀ m ∈ s.sent,
      m.prevotesAgainst v (s.nodes v).engine.ceState.csRound p.pmBlockHash = false)
    (hlock : (s.nodes v).engine.ceState.csLockedBlock = none ∨
      (s.nodes v).engine.ceState.csLockedBlock = some p.pmBlockHash ∨
      M.ValidRoundBacked s p.pmBlockHash p.pmValidRound) :
    VoteHistory.Allowed M.quorums (voteHistory s.sent)
      (.prevote v p.pmBlockHash (s.nodes v).engine.ceState.csRound.unConsensusRound.toNat) := by
  constructor
  · intro y hy
    obtain ⟨q, hq, hsender, hblock, hround⟩ := exists_prevote_of_mem_voteHistory hy
    have hsame : q.prRound = (s.nodes v).engine.ceState.csRound :=
      congrArg ConsensusRound.mk (UInt64.toNat_inj.mp hround)
    have hagainst := honly _ hq
    simp only [ConsensusMessage.prevotesAgainst, hsender, hsame, hblock] at hagainst
    simpa using hagainst
  · intro y r hy _
    obtain ⟨l, lr, hl, hlr, hr⟩ := (h.nodes v).precommitted y r hy
    obtain ⟨r', hle, hpolka⟩ := exists_polka_of_lock h hshould hlock hl hlr
    exact ⟨r', hr.trans hle, hpolka⟩

theorem invariant_proposal (h : M.Invariant s) {v : ValidatorId} {p : ProposalMsg}
    (hsound : M.SoundStep s (.proposal v p)) : M.Invariant (after s (.proposal v p)) := by
  have hv := h.nodes v
  by_cases hguard : p.pmRound = (s.nodes v).engine.ceState.csRound ∧
      isRoundProposer (s.nodes v).engine.ceState.csRound
        (s.nodes v).engine.ceState.csValidatorSet p.pmProposer = some true ∧
      shouldVote (s.nodes v).engine.ceState p
  · obtain ⟨honly, hlock⟩ := hsound hguard.1 hguard.2.1 hguard.2.2
    let msg := prevoteMsg (s.nodes v).engine (some p.pmBlockHash)
    have hhandle : (s.nodes v).handle (.proposal v p) =
        { s.nodes v with
          engine := (sendPrevote (s.nodes v).engine (some p.pmBlockHash)).modifyState fun st =>
            { st with csStep := .prevotePhase } } := by
      rw [Node.handle, handleProposal_eq_sendPrevote hguard.1 hguard.2.1 hguard.2.2]
    have hvote : (ConsensusMessage.prevote msg).toVote = some (.prevote v p.pmBlockHash
        (s.nodes v).engine.ceState.csRound.unConsensusRound.toNat) := by
      change some (PhaseVote.prevote (s.nodes v).engine.ceValidator p.pmBlockHash _) = _
      rw [hv.validator]
      rfl
    rw [after, Event.target, hhandle]
    refine h.update_vote ?_ hvote rfl (allowed_prevote h hguard.2.2 honly hlock) ?_
    · change _ :: (s.nodes v).engine.ceMsgQueue = _
      rw [hv.queue]
    · refine NodeInvariant.cons ?_ hvote le_rfl ?_
      · exact ⟨hv.validatorSet, hv.validator, rfl, hv.prevotes, hv.precommits, hv.rounds,
          hv.locked, hv.precommitted, hv.decided, by rintro ⟨⟩⟩
      · rintro b r ⟨⟩
  · have hhandle : (s.nodes v).handle (.proposal v p) = s.nodes v := by
      rw [Node.handle, handleProposal, if_neg hguard]
    rw [after, Event.target, hhandle]
    exact h.update_idle hv

/-! ### Prevotes -/

theorem Invariant.lock (h : M.Invariant s) {v : ValidatorId} {node : Node}
    (hv : M.NodeInvariant s.sent v node) {b : BlockHash}
    (hpolka : Polka M.quorums (voteHistory s.sent) b
      node.engine.ceState.csRound.unConsensusRound.toNat) {node' : Node}
    (hnode' : node' = { node with engine := sendPrecommit (node.engine.modifyState
      (lockOn (some b) node.engine.ceState.csRound)) (some b) }) :
    M.Invariant ⟨Function.update s.nodes v node'.flush, node'.engine.ceMsgQueue ++ s.sent⟩ := by
  have hvote : (ConsensusMessage.precommit (precommitMsg (node.engine.modifyState
      (lockOn (some b) node.engine.ceState.csRound)) (some b))).toVote =
      some (.precommit v b node.engine.ceState.csRound.unConsensusRound.toNat) := by
    change some (PhaseVote.precommit node.engine.ceValidator b _) = _
    rw [hv.validator]
    rfl
  subst hnode'
  refine h.update_vote ?_ hvote rfl ?_ ?_
  · change _ :: node.engine.ceMsgQueue = _
    rw [hv.queue]
  · exact ⟨hpolka, fun y r hy => hv.rounds _ hy rfl⟩
  · refine NodeInvariant.cons ?_ hvote le_rfl ?_
    · refine ⟨hv.validatorSet, hv.validator, rfl, hv.prevotes, hv.precommits, hv.rounds, ?_, ?_,
        hv.decided, by rintro ⟨⟩⟩
      · rintro l ⟨⟩
        exact ⟨_, rfl, hpolka⟩
      · exact fun y r hy => ⟨b, _, rfl, rfl, hv.rounds _ hy rfl⟩
    · rintro y r ⟨⟩
      exact ⟨b, _, rfl, rfl, le_rfl⟩

theorem invariant_prevote (h : M.Invariant s) {v : ValidatorId} {p : PrevoteMsg}
    (hauth : M.Authentic s p.prSender (.prevote p)) (hsound : M.SoundStep s (.prevote v p)) :
    M.Invariant (after s (.prevote v p)) := by
  have hv := (h.nodes v).receivePrevote hauth
  have hvset := (h.nodes v).validatorSet
  by_cases hmaj : superMajority (s.nodes v).engine.ceState.csValidatorSet (prevoteSenders
      (((s.nodes v).receivePrevote p).collectPrevotes (s.nodes v).engine.ceState.csRound)) = true
  · -- a quorum of votes: by the condition it is one for the first block
    have hbacked := hsound (by rw [← hvset]; exact hmaj)
    generalize hb : firstBlock _ = b at hbacked
    cases b with
    | none => exact absurd hbacked (not_superMajority_nil hv.prevotes h.noNil _)
    | some b =>
        rw [after, Event.target]
        exact h.lock hv (polka_of_superMajority hv.prevotes hbacked)
          (Node.handle_prevote_eq_sendPrecommit v hmaj hb)
  · have hnil := not_superMajority_nil hv.prevotes h.noNil
      (s.nodes v).engine.ceState.csRound
    rw [← hvset] at hnil
    rw [after, Event.target, Node.handle_prevote_eq_self v hmaj hnil]
    exact h.update_idle hv

/-! ### Precommits -/

theorem Invariant.commit (h : M.Invariant s) {v : ValidatorId} {node : Node}
    (hv : M.NodeInvariant s.sent v node) {b : BlockHash} {r : ℕ}
    (hcommit : Commit M.quorums (voteHistory s.sent) b r) {node' : Node}
    (hnode' : node' = { node with
      engine := (commitBlock node.engine b).modifyState fun st =>
        { st with csDecision := some b, csStep := .commitPhase } }) :
    M.Invariant ⟨Function.update s.nodes v node'.flush, node'.engine.ceMsgQueue ++ s.sent⟩ := by
  subst hnode'
  refine h.update_idle ⟨hv.validatorSet, hv.validator, hv.queue, hv.prevotes, hv.precommits,
    hv.rounds, hv.locked, hv.precommitted, ?_, ?_⟩
  · rintro d ⟨⟩
    exact ⟨r, hcommit⟩
  · rintro - ⟨⟩

theorem Invariant.nextRound (h : M.Invariant s) {v : ValidatorId} {node : Node}
    (hv : M.NodeInvariant s.sent v node)
    (hmax : node.engine.ceState.csRound.unConsensusRound ≠ Protocol.maxWord64)
    {now : Timestamp} {node' : Node}
    (hnode' : node' = { node with
      engine := startNextRound now node.engine node.engine.ceState.csRound }) :
    M.Invariant ⟨Function.update s.nodes v node'.flush, node'.engine.ceMsgQueue ++ s.sent⟩ := by
  subst hnode'
  refine h.update_idle ⟨hv.validatorSet, hv.validator, hv.queue, hv.prevotes, hv.precommits, ?_,
    hv.locked, hv.precommitted, hv.decided, by rintro ⟨⟩⟩
  intro vote hvote hvoter
  change vote.round ≤ (node.engine.ceState.csRound.unConsensusRound + 1).toNat
  rw [Protocol.toNat_add_one hmax]
  exact (hv.rounds vote hvote hvoter).trans (Nat.le_succ _)

theorem invariant_precommit (h : M.Invariant s) {v : ValidatorId} {p : PrecommitMsg}
    {now : Timestamp} (hauth : M.Authentic s p.pcSender (.precommit p))
    (hsound : M.SoundStep s (.precommit v p now)) :
    M.Invariant (after s (.precommit v p now)) := by
  have hv := (h.nodes v).receivePrecommit hauth
  have hvset := (h.nodes v).validatorSet
  obtain ⟨hbacked, hlast⟩ := hsound
  by_cases hmaj : superMajority (s.nodes v).engine.ceState.csValidatorSet (precommitSenders
      (((s.nodes v).receivePrecommit p).collectPrecommits
        (s.nodes v).engine.ceState.csRound)) = true
  · have hmaj' := hmaj
    rw [hvset] at hmaj'
    generalize hb : firstBlock _ = b at hlast
    cases b with
    | none =>
        rw [after, Event.target]
        exact h.nextRound hv (hlast hmaj' rfl) (Node.handle_precommit_eq_startNextRound v hmaj hb)
    | some b =>
        have hfor : superMajority M.vset (precommitSenders (precommitsFor
            (((s.nodes v).receivePrecommit p).collectPrecommits
              (s.nodes v).engine.ceState.csRound) (some b))) = true := by
          rw [← hb]
          exact hbacked hmaj' (by rw [hb]; exact Option.some_ne_none b)
        rw [after, Event.target]
        exact h.commit hv (commit_of_superMajority hv.precommits hfor)
          (Node.handle_precommit_eq_commitBlock v hmaj hb)
  · rw [after, Event.target, Node.handle_precommit_eq_self v hmaj]
    exact h.update_idle hv

/-! ### Commits and timeouts -/

/-- A commit message finalizes what the engine has decided before. -/
theorem invariant_commit (h : M.Invariant s) (v : ValidatorId) (c : CommitMsg) :
    M.Invariant (after s (.commit v c)) := by
  have hv := h.nodes v
  by_cases hguard : (s.nodes v).engine.ceState.csStep = .commitPhase ∧
      c.cmBlockHash = (s.nodes v).engine.ceState.csDecision.getD c.cmBlockHash
  · obtain ⟨hstep, hblock⟩ := hguard
    obtain ⟨d, hd⟩ := Option.ne_none_iff_exists'.mp (hv.committed hstep)
    have hsame : c.cmBlockHash = d := by
      rw [hd, Option.getD_some] at hblock
      exact hblock
    have hhandle : (s.nodes v).handle (.commit v c) =
        { s.nodes v with engine := finalizeBlock (s.nodes v).engine d } := by
      rw [Node.handle, handleCommit, if_pos ⟨hstep, hblock⟩, hsame]
    rw [after, Event.target, hhandle]
    refine h.update_idle ⟨hv.validatorSet, hv.validator, hv.queue, hv.prevotes, hv.precommits,
      hv.rounds, hv.locked, hv.precommitted, ?_, ?_⟩
    · rintro b ⟨⟩
      exact hv.decided d hd
    · rintro - ⟨⟩
  · have hhandle : (s.nodes v).handle (.commit v c) = s.nodes v := by
      rw [Node.handle, handleCommit, if_neg hguard]
    rw [after, Event.target, hhandle]
    exact h.update_idle hv

theorem invariant_timeout (h : M.Invariant s) {v : ValidatorId} {now : Timestamp}
    (hsound : M.SoundStep s (.timeout v now)) : M.Invariant (after s (.timeout v now)) := by
  have hv := h.nodes v
  have hcounted : M.NodeInvariant s.sent v { s.nodes v with
      engine := (s.nodes v).engine.modifyMetrics fun m =>
        { m with cmTimeouts := m.cmTimeouts + 1 } } :=
    ⟨hv.validatorSet, hv.validator, hv.queue, hv.prevotes, hv.precommits, hv.rounds, hv.locked,
      hv.precommitted, hv.decided, hv.committed⟩
  exact h.nextRound hcounted hsound rfl

/-! ### Runs -/

theorem step_eq_some_iff {e : Event} {s' : System} :
    M.step s e = some s' ↔ M.Admissible s e ∧ after s e = s' := by
  by_cases hadm : M.Admissible s e
  · rw [step, if_pos hadm, Option.some.injEq]
    exact (and_iff_right hadm).symm
  · rw [step, if_neg hadm]
    constructor
    · intro h
      cases h
    · intro h
      exact absurd h.1 hadm

/-- A step that meets the condition keeps the invariant. -/
theorem invariant_next (h : M.Invariant s) {s' : System} (hnext : M.SoundNext s s') :
    M.Invariant s' := by
  obtain ⟨e, hsound, hstep⟩ := hnext
  obtain ⟨hadm, rfl⟩ := step_eq_some_iff.mp hstep
  cases e with
  | propose v b => exact invariant_propose h v b
  | proposal v p => exact invariant_proposal h hsound
  | prevote v p => exact invariant_prevote h hadm.2 hsound
  | precommit v p now => exact invariant_precommit h hadm.2 hsound
  | commit v c => exact invariant_commit h v c
  | timeout v now => exact invariant_timeout h hsound

theorem invariant_run (h : M.Invariant s) {s' : System}
    (hrun : Relation.ReflTransGen M.SoundNext s s') : M.Invariant s' := by
  induction hrun with
  | refl => exact h
  | tail _ hnext ih => exact invariant_next ih hnext

theorem voteHistory_subset_of_run {s' : System}
    (hrun : Relation.ReflTransGen M.SoundNext s s') :
    voteHistory s.sent ⊆ voteHistory s'.sent := by
  induction hrun with
  | refl => exact List.Subset.refl _
  | tail _ hnext ih =>
      obtain ⟨e, _, hstep⟩ := hnext
      obtain ⟨_, rfl⟩ := step_eq_some_iff.mp hstep
      rw [after, voteHistory_append]
      exact List.subset_append_of_subset_right _ ih

/-- `run` on the steps that meet the condition: it stays where the first one does
not meet it or cannot happen. -/
def soundRun (M : FaultModel) (s : System) : List Event → System
  | [] => s
  | e :: es =>
      if M.SoundStep s e ∧ M.Admissible s e then soundRun M (after s e) es else s

theorem reachable_soundRun (s : System) (es : List Event) :
    Relation.ReflTransGen M.SoundNext s (M.soundRun s es) := by
  induction es generalizing s with
  | nil => exact Relation.ReflTransGen.refl
  | cons e es ih =>
      rw [soundRun]
      split
      · next hstep =>
          refine Relation.ReflTransGen.head ⟨e, hstep.1, ?_⟩ (ih (after s e))
          exact step_eq_some_iff.mpr ⟨hstep.2, rfl⟩
      · exact Relation.ReflTransGen.refl

end FaultModel

/-! ### Schedules of four validators -/

namespace FourValidators

/-- The first of the four validators is Byzantine. -/
def faultModel : FaultModel where
  vset := vset
  byzantine v := v = validator 0
  exact := ⟨by decide, by decide⟩
  minority := by decide

def initial : System :=
  System.init ⟨0⟩ (fun _ => ⟨1000⟩) (fun v => ⟨v.address.bytes ++ List.replicate 12 0⟩) vset

def start (n : UInt8) : ConsensusEngine := (initial.nodes (validator n)).engine

def deliverPrevotes (receiver : UInt8) (votes : List (UInt8 × BlockHash)) : List Event :=
  votes.map fun vote =>
    .prevote (validator receiver) (prevoteMsg (start vote.1) (some vote.2))

def deliverPrecommits (receiver : UInt8) (votes : List (UInt8 × BlockHash)) : List Event :=
  votes.map fun vote =>
    .precommit (validator receiver) (precommitMsg (start vote.1) (some vote.2)) ⟨0⟩

/-- The Byzantine proposer of round 0 proposes one block to the second validator and
another to the third, and votes with each. -/
def schedule (x y : BlockHash) : List Event :=
  [.proposal (validator 1) (proposalMsg (start 0) x),
    .proposal (validator 2) (proposalMsg (start 0) y)] ++
  deliverPrevotes 1 [(1, x), (2, y), (0, x)] ++ deliverPrevotes 2 [(2, y), (1, x), (0, y)] ++
  deliverPrecommits 1 [(1, x), (2, y), (0, x)] ++ deliverPrecommits 2 [(2, y), (1, x), (0, y)]

/-- With one proposal, before and after the precommits reach the third validator. -/
def middle : System := faultModel.soundRun initial ((schedule (block 1) (block 1)).take 11)

def last : System := faultModel.soundRun middle ((schedule (block 1) (block 1)).drop 11)

theorem middle_reachable : Relation.ReflTransGen faultModel.SoundNext initial middle :=
  FaultModel.reachable_soundRun initial _

theorem last_reachable : Relation.ReflTransGen faultModel.SoundNext middle last :=
  FaultModel.reachable_soundRun middle _

def decision (s : System) (n : UInt8) : Option BlockHash :=
  (s.nodes (validator n)).engine.ceState.csDecision

end FourValidators

/-! ### Agreement -/

/-- Any two decisions of a run whose steps all meet the condition are the same, also
when they are made at different times. -/
theorem decisions_agree (M : FaultModel) (now : Timestamp)
    (config : ValidatorId → ConsensusConfig) (privKey : ValidatorId → PrivateKey)
    {s s' : System}
    (hrun : Relation.ReflTransGen M.SoundNext (System.init now config privKey M.vset) s)
    (hrun' : Relation.ReflTransGen M.SoundNext s s') {u v : ValidatorId} {h h' : BlockHash}
    (hu : (s.nodes u).engine.ceState.csDecision = some h)
    (hv : (s'.nodes v).engine.ceState.csDecision = some h') : h = h' := by
  have hinv := M.invariant_run (M.invariant_init now config privKey) hrun
  have hinv' := M.invariant_run hinv hrun'
  obtain ⟨r, hcommit⟩ := (hinv.nodes u).decided h hu
  obtain ⟨r', hcommit'⟩ := (hinv'.nodes v).decided h' hv
  exact hinv'.disciplined.agreement
    (hcommit.mono (FaultModel.voteHistory_subset_of_run hrun')) hcommit'

open FourValidators in
/-- With one proposal the second validator decides first, and the third on the same
block. -/
theorem schedule_agrees :
    decision middle 1 = some (block 1) ∧ decision middle 2 = none ∧
      decision last 2 = decision middle 1 := by
  have hmiddle : (decision middle 1, decision middle 2) = (some (block 1), none) := by
    decide +kernel
  obtain ⟨hfirst, hnone⟩ := Prod.mk.inj hmiddle
  obtain ⟨h, hlater⟩ : ∃ h, decision last 2 = some h :=
    Option.isSome_iff_exists.mp (by decide +kernel)
  have hagree : block 1 = h := decisions_agree faultModel ⟨0⟩ (fun _ => ⟨1000⟩)
    (fun v => ⟨v.address.bytes ++ List.replicate 12 0⟩) middle_reachable last_reachable
    hfirst hlater
  exact ⟨hfirst, hnone, by rw [hlater, hfirst, hagree]⟩

open FourValidators in
/-- With two proposals the two engines, both correct, decide on different blocks. -/
theorem schedule_disagrees :
    faultModel.byzantine (validator 1) = false ∧ faultModel.byzantine (validator 2) = false ∧
      (faultModel.run initial (schedule (block 1) (block 2))).map
          (fun s => (decision s 1, decision s 2)) = some (some (block 1), some (block 2)) ∧
      block 1 ≠ block 2 :=
  ⟨by decide, by decide, by decide +kernel, by decide⟩

end Consensus

end CryptoCoin
