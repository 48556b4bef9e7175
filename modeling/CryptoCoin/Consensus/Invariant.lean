import CryptoCoin.Consensus.Network

/-!
# The invariant of the network

`FaultModel.Invariant` says of a system that its engines follow the locking rule
of `VoteHistory`: the votes sent by correct validators form a disciplined
history, a lock rests on a quorum of prevotes, a decision on a quorum of
precommits, and what an engine has received is authentic.

An event runs one engine. `Invariant.update` reduces the invariant of the next
system to that engine's node and the messages it adds; `update_quiet` and
`update_vote` are its two uses, for steps without and with a vote.
-/

namespace CryptoCoin

namespace Consensus

open Protocol (ValidatorId Timestamp PrivateKey)
open VoteHistory (Polka Commit Disciplined)

/-! ### The votes of a history -/

theorem mem_voteHistory {sent : List ConsensusMessage} {m : ConsensusMessage}
    {vote : PhaseVote ValidatorId BlockHash} (hm : m ∈ sent) (hvote : m.toVote = some vote) :
    vote ∈ voteHistory sent :=
  List.mem_filterMap.mpr ⟨m, hm, hvote⟩

theorem exists_prevote_of_mem_voteHistory {sent : List ConsensusMessage} {v : ValidatorId}
    {h : BlockHash} {r : ℕ} (hmem : .prevote v h r ∈ voteHistory sent) :
    ∃ p : PrevoteMsg, .prevote p ∈ sent ∧ p.prSender = v ∧ p.prBlockHash = some h ∧
      p.prRound.unConsensusRound.toNat = r := by
  obtain ⟨m, hm, hvote⟩ := List.mem_filterMap.mp hmem
  cases m with
  | prevote p =>
      obtain ⟨h', hblock, heq⟩ := Option.map_eq_some_iff.mp hvote
      cases heq
      exact ⟨p, hm, rfl, hblock, rfl⟩
  | precommit p =>
      obtain ⟨h', _, heq⟩ := Option.map_eq_some_iff.mp hvote
      cases heq
  | proposal p => cases hvote
  | ownProposal p => cases hvote
  | commit c => cases hvote
  | viewChange vc => cases hvote
  | newView nv => cases hvote

theorem voteHistory_append (new sent : List ConsensusMessage) :
    voteHistory (new ++ sent) = voteHistory new ++ voteHistory sent :=
  List.filterMap_append

namespace FaultModel

variable (M : FaultModel)

/-! ### Quorums -/

/-- More than two thirds of the power, with the Byzantine validators as the faulty
ones. -/
noncomputable def quorums : QuorumSystem ValidatorId :=
  QuorumSystem.ofWeight M.vset.members (fun v => M.byzantine v = true) M.minority

/-- The senders of votes that `superMajority` accepts are a quorum. -/
theorem isQuorum_of_senders {α : Type} {sender : α → ValidatorId} {votes : List α}
    {S : Set ValidatorId} (h : superMajority M.vset (votes.map sender).toFinset = true)
    (hsub : ∀ p ∈ votes, sender p ∈ S) : M.quorums.IsQuorum S := by
  refine QuorumSystem.isQuorum_ofWeight ((superMajority_iff M.exact _).mp h) ?_
  intro v hv
  obtain ⟨p, hp, rfl⟩ := List.mem_map.mp (List.mem_toFinset.mp hv)
  exact hsub p hp

theorem polka_of_hasPolka {s : System} {h : BlockHash} {round : ConsensusRound}
    (hpolka : M.HasPolka s h round) :
    Polka M.quorums (voteHistory s.sent) h round.unConsensusRound.toNat :=
  QuorumSystem.isQuorum_ofWeight hpolka fun _ hv => hv

/-! ### The invariant -/

/-- What holds of the node of a validator, given the messages sent so far. -/
structure NodeInvariant (sent : List ConsensusMessage) (v : ValidatorId) (node : Node) :
    Prop where
  validatorSet : node.engine.ceState.csValidatorSet = M.vset
  validator : node.engine.ceValidator = v
  queue : node.engine.ceMsgQueue = []
  prevotes : ∀ p ∈ node.prevotes, M.byzantine p.prSender = true ∨ .prevote p ∈ sent
  precommits : ∀ p ∈ node.precommits, M.byzantine p.pcSender = true ∨ .precommit p ∈ sent
  rounds : ∀ vote ∈ voteHistory sent, vote.voter = v →
    vote.round ≤ node.engine.ceState.csRound.unConsensusRound.toNat
  locked : ∀ l, node.engine.ceState.csLockedBlock = some l →
    ∃ lr, node.engine.ceState.csLockedRound = some lr ∧
      Polka M.quorums (voteHistory sent) l lr.unConsensusRound.toNat
  precommitted : ∀ h r, .precommit v h r ∈ voteHistory sent →
    ∃ l lr, node.engine.ceState.csLockedBlock = some l ∧
      node.engine.ceState.csLockedRound = some lr ∧ r ≤ lr.unConsensusRound.toNat
  decided : ∀ h, node.engine.ceState.csDecision = some h →
    ∃ r, Commit M.quorums (voteHistory sent) h r
  committed : node.engine.ceState.csStep = .commitPhase →
    node.engine.ceState.csDecision ≠ none

/-- What holds of a system: correct engines prevote blocks only, and their votes
follow the locking rule. -/
structure Invariant (s : System) : Prop where
  nodes : ∀ v, M.NodeInvariant s.sent v (s.nodes v)
  noNil : ∀ p, .prevote p ∈ s.sent → p.prBlockHash ≠ none
  disciplined : Disciplined M.quorums (voteHistory s.sent)

theorem invariant_init (now : Timestamp) (config : ValidatorId → ConsensusConfig)
    (privKey : ValidatorId → PrivateKey) :
    M.Invariant (System.init now config privKey M.vset) where
  nodes v :=
    { validatorSet := rfl
      validator := rfl
      queue := rfl
      prevotes := by intro p hp; cases hp
      precommits := by intro p hp; cases hp
      rounds := by intro vote hvote; cases hvote
      locked := by intro l hl; cases hl
      precommitted := by intro h r hvote; cases hvote
      decided := by intro h hd; cases hd
      committed := by intro hstep; cases hstep }
  noNil := by intro p hp; cases hp
  disciplined := trivial

variable {M}

theorem NodeInvariant.mono {new sent : List ConsensusMessage} {v : ValidatorId} {node : Node}
    (h : M.NodeInvariant sent v node) (hnew : ∀ vote ∈ voteHistory new, vote.voter ≠ v) :
    M.NodeInvariant (new ++ sent) v node := by
  have hsub : voteHistory sent ⊆ voteHistory (new ++ sent) := by
    rw [voteHistory_append]
    exact List.subset_append_right _ _
  have hold : ∀ vote ∈ voteHistory (new ++ sent), vote.voter = v → vote ∈ voteHistory sent := by
    intro vote hvote hv
    rw [voteHistory_append] at hvote
    exact (List.mem_append.mp hvote).resolve_left fun hmem => hnew vote hmem hv
  refine ⟨h.validatorSet, h.validator, h.queue, ?_, ?_, ?_, ?_, ?_, ?_, h.committed⟩
  · exact fun p hp => (h.prevotes p hp).imp_right (List.mem_append_right new)
  · exact fun p hp => (h.precommits p hp).imp_right (List.mem_append_right new)
  · exact fun vote hvote hv => h.rounds vote (hold vote hvote hv) hv
  · intro l hl
    obtain ⟨lr, hlr, hpolka⟩ := h.locked l hl
    exact ⟨lr, hlr, hpolka.mono hsub⟩
  · exact fun b r hvote => h.precommitted b r (hold _ hvote rfl)
  · intro b hb
    obtain ⟨r, hcommit⟩ := h.decided b hb
    exact ⟨r, hcommit.mono hsub⟩

theorem NodeInvariant.cons {sent : List ConsensusMessage} {v : ValidatorId} {node : Node}
    (h : M.NodeInvariant sent v node) {m : ConsensusMessage}
    {vote : PhaseVote ValidatorId BlockHash} (hvote : m.toVote = some vote)
    (hround : vote.round ≤ node.engine.ceState.csRound.unConsensusRound.toNat)
    (hlock : ∀ b r, vote = .precommit v b r →
      ∃ l lr, node.engine.ceState.csLockedBlock = some l ∧
        node.engine.ceState.csLockedRound = some lr ∧ r ≤ lr.unConsensusRound.toNat) :
    M.NodeInvariant (m :: sent) v node := by
  have hcons : voteHistory (m :: sent) = vote :: voteHistory sent := by
    rw [voteHistory, List.filterMap_cons_some hvote]
    rfl
  have hsub : voteHistory sent ⊆ voteHistory (m :: sent) := by
    rw [hcons]
    exact List.subset_cons_self _ _
  refine ⟨h.validatorSet, h.validator, h.queue, ?_, ?_, ?_, ?_, ?_, ?_, h.committed⟩
  · exact fun p hp => (h.prevotes p hp).imp_right (List.mem_cons_of_mem m)
  · exact fun p hp => (h.precommits p hp).imp_right (List.mem_cons_of_mem m)
  · intro w hw hv
    rw [hcons] at hw
    rcases List.mem_cons.mp hw with rfl | hw
    · exact hround
    · exact h.rounds w hw hv
  · intro l hl
    obtain ⟨lr, hlr, hpolka⟩ := h.locked l hl
    exact ⟨lr, hlr, hpolka.mono hsub⟩
  · intro b r hw
    rw [hcons] at hw
    rcases List.mem_cons.mp hw with heq | hw
    · exact hlock b r heq.symm
    · exact h.precommitted b r hw
  · intro b hb
    obtain ⟨r, hcommit⟩ := h.decided b hb
    exact ⟨r, hcommit.mono hsub⟩

/-- A step of one node keeps the invariant when its new state fits to the messages
it adds. -/
theorem Invariant.update {s : System} (h : M.Invariant s) {v : ValidatorId} {node : Node}
    (hnode : M.NodeInvariant (node.engine.ceMsgQueue ++ s.sent) v node.flush)
    (hvoter : ∀ vote ∈ voteHistory node.engine.ceMsgQueue, vote.voter = v)
    (hnil : ∀ p, .prevote p ∈ node.engine.ceMsgQueue → p.prBlockHash ≠ none)
    (hdisc : Disciplined M.quorums (voteHistory (node.engine.ceMsgQueue ++ s.sent))) :
    M.Invariant ⟨Function.update s.nodes v node.flush, node.engine.ceMsgQueue ++ s.sent⟩ where
  nodes u := by
    by_cases hu : u = v
    · subst hu
      change M.NodeInvariant _ u (Function.update s.nodes u node.flush u)
      rw [Function.update_self]
      exact hnode
    · change M.NodeInvariant _ u (Function.update s.nodes v node.flush u)
      rw [Function.update_of_ne hu]
      exact (h.nodes u).mono fun vote hvote heq => hu (heq.symm.trans (hvoter vote hvote))
  noNil := by
    intro p hp
    rcases List.mem_append.mp hp with hp | hp
    · exact hnil p hp
    · exact h.noNil p hp
  disciplined := hdisc

theorem Invariant.update_quiet {s : System} (h : M.Invariant s) {v : ValidatorId} {node : Node}
    (hquiet : ∀ m ∈ node.engine.ceMsgQueue, ∃ p, m = .proposal p)
    (hnode : M.NodeInvariant s.sent v node.flush) :
    M.Invariant ⟨Function.update s.nodes v node.flush, node.engine.ceMsgQueue ++ s.sent⟩ := by
  have hnone : voteHistory node.engine.ceMsgQueue = [] := by
    rw [voteHistory, List.filterMap_eq_nil_iff]
    intro m hm
    obtain ⟨p, rfl⟩ := hquiet m hm
    rfl
  refine h.update (hnode.mono ?_) ?_ ?_ ?_
  · intro vote hvote
    rw [hnone] at hvote
    cases hvote
  · intro vote hvote
    rw [hnone] at hvote
    cases hvote
  · intro p hp
    obtain ⟨q, hq⟩ := hquiet _ hp
    cases hq
  · rw [voteHistory_append, hnone]
    exact h.disciplined

theorem Invariant.update_idle {s : System} (h : M.Invariant s) {v : ValidatorId} {node : Node}
    (hv : M.NodeInvariant s.sent v node) :
    M.Invariant ⟨Function.update s.nodes v node.flush, node.engine.ceMsgQueue ++ s.sent⟩ := by
  refine h.update_quiet ?_ ?_
  · intro m hm
    rw [hv.queue] at hm
    cases hm
  · exact ⟨hv.validatorSet, hv.validator, rfl, hv.prevotes, hv.precommits, hv.rounds, hv.locked,
      hv.precommitted, hv.decided, hv.committed⟩

theorem Invariant.update_vote {s : System} (h : M.Invariant s) {v : ValidatorId} {node : Node}
    {m : ConsensusMessage} {vote : PhaseVote ValidatorId BlockHash}
    (hqueue : node.engine.ceMsgQueue = [m]) (hvote : m.toVote = some vote)
    (hvoter : vote.voter = v)
    (hallowed : VoteHistory.Allowed M.quorums (voteHistory s.sent) vote)
    (hnode : M.NodeInvariant (m :: s.sent) v node.flush) :
    M.Invariant ⟨Function.update s.nodes v node.flush, node.engine.ceMsgQueue ++ s.sent⟩ := by
  have hnew : voteHistory node.engine.ceMsgQueue = [vote] := by
    rw [hqueue, voteHistory, List.filterMap_cons_some hvote, List.filterMap_nil]
  refine h.update ?_ ?_ ?_ ?_
  · rw [hqueue]
    exact hnode
  · intro w hw
    rw [hnew, List.mem_singleton] at hw
    rw [hw, hvoter]
  · intro p hp hnone
    rw [hqueue, List.mem_singleton] at hp
    rw [← hp, ConsensusMessage.toVote, hnone] at hvote
    cases hvote
  · rw [voteHistory_append, hnew]
    exact ⟨hallowed, h.disciplined⟩

/-! ### Votes of a node -/

theorem NodeInvariant.receivePrevote {sent : List ConsensusMessage} {v : ValidatorId}
    {node : Node} (hv : M.NodeInvariant sent v node) {p : PrevoteMsg}
    (hauth : M.byzantine p.prSender = true ∨ .prevote p ∈ sent) :
    M.NodeInvariant sent v (node.receivePrevote p) := by
  refine ⟨hv.validatorSet, hv.validator, hv.queue, ?_, hv.precommits, hv.rounds, hv.locked,
    hv.precommitted, hv.decided, hv.committed⟩
  intro q hq
  rcases List.mem_append.mp hq with hq | hq
  · exact hv.prevotes q hq
  · rw [List.mem_singleton.mp hq]
    exact hauth

theorem NodeInvariant.receivePrecommit {sent : List ConsensusMessage} {v : ValidatorId}
    {node : Node} (hv : M.NodeInvariant sent v node) {p : PrecommitMsg}
    (hauth : M.byzantine p.pcSender = true ∨ .precommit p ∈ sent) :
    M.NodeInvariant sent v (node.receivePrecommit p) := by
  refine ⟨hv.validatorSet, hv.validator, hv.queue, hv.prevotes, ?_, hv.rounds, hv.locked,
    hv.precommitted, hv.decided, hv.committed⟩
  intro q hq
  rcases List.mem_append.mp hq with hq | hq
  · exact hv.precommits q hq
  · rw [List.mem_singleton.mp hq]
    exact hauth

theorem mem_collectPrevotes {node : Node} {round : ConsensusRound} {p : PrevoteMsg}
    (h : p ∈ node.collectPrevotes round) : p ∈ node.prevotes ∧ p.prRound = round :=
  mem_of_mem_firstPerSender h

theorem mem_collectPrecommits {node : Node} {round : ConsensusRound} {p : PrecommitMsg}
    (h : p ∈ node.collectPrecommits round) : p ∈ node.precommits ∧ p.pcRound = round :=
  mem_of_mem_firstPerSender h

/-- Delivered prevotes whose senders are a super-majority for a block are a polka
of the history. -/
theorem polka_of_superMajority {sent : List ConsensusMessage} {node : Node}
    (hauth : ∀ p ∈ node.prevotes, M.byzantine p.prSender = true ∨ .prevote p ∈ sent)
    {round : ConsensusRound} {b : BlockHash}
    (hmaj : superMajority M.vset
      (prevoteSenders (prevotesFor (node.collectPrevotes round) (some b))) = true) :
    Polka M.quorums (voteHistory sent) b round.unConsensusRound.toNat := by
  refine M.isQuorum_of_senders hmaj ?_
  intro p hp
  obtain ⟨hcollected, hblock⟩ := List.mem_filter.mp hp
  obtain ⟨hdelivered, hround⟩ := mem_collectPrevotes hcollected
  apply (hauth p hdelivered).imp_right
  intro hsent
  apply mem_voteHistory hsent
  rw [ConsensusMessage.toVote, of_decide_eq_true hblock, hround]
  rfl

theorem commit_of_superMajority {sent : List ConsensusMessage} {node : Node}
    (hauth : ∀ p ∈ node.precommits, M.byzantine p.pcSender = true ∨ .precommit p ∈ sent)
    {round : ConsensusRound} {b : BlockHash}
    (hmaj : superMajority M.vset
      (precommitSenders (precommitsFor (node.collectPrecommits round) (some b))) = true) :
    Commit M.quorums (voteHistory sent) b round.unConsensusRound.toNat := by
  refine M.isQuorum_of_senders hmaj ?_
  intro p hp
  obtain ⟨hcollected, hblock⟩ := List.mem_filter.mp hp
  obtain ⟨hdelivered, hround⟩ := mem_collectPrecommits hcollected
  apply (hauth p hdelivered).imp_right
  intro hsent
  apply mem_voteHistory hsent
  rw [ConsensusMessage.toVote, of_decide_eq_true hblock, hround]
  rfl

/-- There is no super-majority of nil prevotes: correct engines send none. -/
theorem not_superMajority_nil {sent : List ConsensusMessage} {node : Node}
    (hauth : ∀ p ∈ node.prevotes, M.byzantine p.prSender = true ∨ .prevote p ∈ sent)
    (hnoNil : ∀ p, .prevote p ∈ sent → p.prBlockHash ≠ none) (round : ConsensusRound) :
    superMajority M.vset (prevoteSenders (prevotesFor (node.collectPrevotes round) none)) ≠
      true := by
  intro hmaj
  have hquorum : M.quorums.IsQuorum M.quorums.faulty := by
    refine M.isQuorum_of_senders hmaj ?_
    intro p hp
    obtain ⟨hcollected, hblock⟩ := List.mem_filter.mp hp
    rcases hauth p (mem_collectPrevotes hcollected).1 with hbyz | hsent
    · exact hbyz
    · exact absurd (of_decide_eq_true hblock) (hnoNil p hsent)
  obtain ⟨a, hcorrect, hfaulty⟩ := M.quorums.exists_mem hquorum
  exact hcorrect hfaulty

end FaultModel

end Consensus

end CryptoCoin
