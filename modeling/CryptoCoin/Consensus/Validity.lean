import CryptoCoin.Consensus.Agreement
import CryptoCoin.Consensus.Decisions

/-!
# Where decided blocks come from

No condition on the steps is made here: events happen in any order, and two correct
engines may even disagree. Two things hold all the same.

* A block is decided, locked or voted for only after it was proposed by a correct validator
  or sent by a Byzantine one (`block_introduced`).
* A decision rests on the precommits of a super-majority in one round, delivered to the
  engine, of which the first is for the block (`decision_backed`).
-/

namespace CryptoCoin

namespace Consensus

open Protocol (ValidatorId Timestamp PrivateKey)

/-! ### The blocks in a state -/

def ConsensusMessage.value : ConsensusMessage → Option BlockHash
  | .proposal p => some p.pmBlockHash
  | .prevote p => p.prBlockHash
  | .precommit p => p.pcBlockHash
  | .ownProposal _ | .commit _ | .viewChange _ | .newView _ => none

section Known

-- the blocks that are known
variable (K : BlockHash → Prop)

structure ConsensusState.Within (s : ConsensusState) : Prop where
  proposed : ∀ h, s.csProposedBlock = some (some h) → K h
  locked : ∀ h, s.csLockedBlock = some h → K h
  valid : ∀ h, s.csValidBlock = some h → K h
  decided : ∀ h, s.csDecision = some h → K h

def Move.Within : Move → Prop
  | .decide b | .finalize b => K b
  | .propose value | .lock value => ∀ h, value = some h → K h
  | _ => True

structure Answers.Within (answers : Answers) : Prop where
  prevotes : ∀ p ∈ answers.prevotes, ∀ h, p.prBlockHash = some h → K h
  precommits : ∀ p ∈ answers.precommits, ∀ h, p.pcBlockHash = some h → K h

variable {K} {s : ConsensusState} {answers : Answers} {engine : ConsensusEngine}

theorem ConsensusState.Within.apply (hs : s.Within K) (mv : Move) (hmv : mv.Within K) :
    (mv.apply s).Within K := by
  obtain ⟨hproposed, hlocked, hvalid, hdecided⟩ := hs
  cases mv with
  | propose value =>
      exact ⟨fun h heq => hmv h (Option.some.inj heq), hlocked, hvalid, hdecided⟩
  | lock value => exact ⟨hproposed, hmv, hmv, hdecided⟩
  | decide b => exact ⟨hproposed, hlocked, hvalid, fun h heq => Option.some.inj heq ▸ hmv⟩
  | finalize b => exact ⟨hproposed, hlocked, hvalid, fun h heq => Option.some.inj heq ▸ hmv⟩
  | _ => exact ⟨hproposed, hlocked, hvalid, hdecided⟩

theorem mem_of_firstBlock {votes : List (Option BlockHash)} {h : BlockHash}
    (hfirst : firstBlock votes = some h) : some h ∈ votes := by
  cases votes with
  | nil => cases hfirst
  | cons vote votes =>
      cases vote with
      | none => cases hfirst
      | some b =>
          cases hfirst
          exact List.mem_cons_self

theorem Answers.Within.firstPrevote (ha : answers.Within K) {h : BlockHash}
    (hfirst : firstBlock (answers.prevotes.map PrevoteMsg.prBlockHash) = some h) : K h := by
  obtain ⟨p, hp, hblock⟩ := List.mem_map.mp (mem_of_firstBlock hfirst)
  exact ha.prevotes p hp h hblock

theorem Answers.Within.firstPrecommit (ha : answers.Within K) {h : BlockHash}
    (hfirst : firstBlock (answers.precommits.map PrecommitMsg.pcBlockHash) = some h) : K h := by
  obtain ⟨p, hp, hblock⟩ := List.mem_map.mp (mem_of_firstBlock hfirst)
  exact ha.precommits p hp h hblock

/-- A message writes blocks that are in the votes or were in the state. -/
theorem Task.move_within (hs : engine.ceState.Within K) (hcommit : CommitDecided engine.ceState)
    (ha : answers.Within K) (msg : ConsensusMessage) :
    ((Task.applyConsensusMessage msg).move answers engine).Within K := by
  cases msg with
  | proposal p =>
      rw [Task.move]
      split
      · trivial
      · trivial
  | ownProposal p => trivial
  | prevote p =>
      rw [Task.move]
      split
      · exact fun h hfirst => ha.firstPrevote hfirst
      · split
        · trivial
        · trivial
  | precommit p =>
      rw [Task.move]
      split
      · split
        · next hfirst => exact ha.firstPrecommit hfirst
        · trivial
      · trivial
  | commit c =>
      rw [Task.move]
      split
      · next hfinal =>
          -- in the commit phase there is a decision, and only its block is written
          obtain ⟨b, hb⟩ := Option.isSome_iff_exists.mp (hcommit hfinal.1)
          apply hs.decided
          rw [hfinal.2, hb, Option.getD_some]
      · trivial
  | viewChange vc =>
      rw [Task.move]
      split
      · trivial
      · trivial
  | newView nv => trivial

theorem Task.effect_within (ha : answers.Within K) {msg sent : ConsensusMessage}
    (hmsg : ∀ h, msg.value = some h → K h)
    (heffect : (Task.applyConsensusMessage msg).effect answers engine = .broadcast sent)
    {h : BlockHash} (hsent : sent.value = some h) : K h := by
  rcases Task.effect_eq_broadcast answers engine heffect with
    ⟨p, htask, _, rfl⟩ | ⟨p, value, htask, hpolka, rfl⟩ | ⟨htask, _⟩
  · cases htask
    exact hmsg h hsent
  · simp only [polka] at hpolka
    split at hpolka
    · cases hpolka
      exact ha.firstPrevote hsent
    · split at hpolka
      · cases hpolka
        cases hsent
      · cases hpolka
  · cases htask

/-! ### Nodes -/

variable (K) in
/-- All blocks at a node are known, and the commit phase comes with a decision. -/
structure Node.Within (node : Node) : Prop where
  queue : ∀ m ∈ node.engine.ceMsgQueue, ∀ h, m.value = some h → K h
  prevotes : ∀ p ∈ node.prevotes, ∀ h, p.prBlockHash = some h → K h
  precommits : ∀ p ∈ node.precommits, ∀ h, p.pcBlockHash = some h → K h
  state : node.engine.ceState.Within K
  commit : CommitDecided node.engine.ceState

variable {node : Node}

theorem Node.Within.message (hnode : node.Within K) (ha : answers.Within K)
    (msg : ConsensusMessage) (hmsg : ∀ h, msg.value = some h → K h) {engine' : ConsensusEngine}
    (hstate : engine'.ceState =
      ((Task.applyConsensusMessage msg).move answers node.engine).apply node.engine.ceState)
    (hobserve : observe engine' [] =
      ((Task.applyConsensusMessage msg).effect answers node.engine).apply
        (observe node.engine [])) :
    Node.Within K { node with engine := engine' } := by
  obtain ⟨hqueue, hprevotes, hprecommits, hwithin, hcommit⟩ := hnode
  refine ⟨?_, hprevotes, hprecommits, ?_, ?_⟩
  · intro m hm h hvalue
    have hsent : m ∈ (observe engine' []).broadcasts := List.mem_append_left [] hm
    rw [hobserve] at hsent
    cases heffect : (Task.applyConsensusMessage msg).effect answers node.engine with
    | broadcast sent =>
        rw [heffect] at hsent
        rcases List.mem_cons.mp hsent with rfl | hold
        · exact Task.effect_within ha hmsg heffect hvalue
        · exact hqueue m (by simpa [observe] using hold) h hvalue
    | _ =>
        rw [heffect] at hsent
        exact hqueue m (by simpa [observe, Effect.apply] using hsent) h hvalue
  · change engine'.ceState.Within K
    rw [hstate]
    exact hwithin.apply _ (Task.move_within hwithin hcommit ha msg)
  · change CommitDecided engine'.ceState
    rw [hstate]
    exact hcommit.apply _

def Node.collected (node : Node) (now : Timestamp) : Answers :=
  { now := now
    prevotes := node.collectPrevotes node.engine.ceState.csRound
    precommits := node.collectPrecommits node.engine.ceState.csRound
    viewChanges := [] }

theorem Node.Within.collected (hnode : node.Within K) (now : Timestamp) :
    (node.collected now).Within K where
  prevotes p hp := hnode.prevotes p (mem_of_mem_firstPerSender hp).1
  precommits p hp := hnode.precommits p (mem_of_mem_firstPerSender hp).1

theorem Node.Within.receivePrevote (hnode : node.Within K) {p : PrevoteMsg}
    (hp : ∀ h, p.prBlockHash = some h → K h) : (node.receivePrevote p).Within K := by
  refine { hnode with prevotes := ?_ }
  intro q hq
  rcases List.mem_append.mp hq with hq | hq
  · exact hnode.prevotes q hq
  · rwa [List.mem_singleton.mp hq]

theorem Node.Within.receivePrecommit (hnode : node.Within K) {p : PrecommitMsg}
    (hp : ∀ h, p.pcBlockHash = some h → K h) : (node.receivePrecommit p).Within K := by
  refine { hnode with precommits := ?_ }
  intro q hq
  rcases List.mem_append.mp hq with hq | hq
  · exact hnode.precommits q hq
  · rwa [List.mem_singleton.mp hq]

/-- The block that an event brings to an engine. A commit brings none: it can only repeat a
decision. -/
def Event.value : Event → Option BlockHash
  | .propose _ b => some b
  | .proposal _ p => some p.pmBlockHash
  | .prevote _ p => p.prBlockHash
  | .precommit _ p _ => p.pcBlockHash
  | .commit _ _ | .timeout _ _ => none

theorem Node.Within.handle (hnode : node.Within K) {e : Event}
    (he : ∀ h, e.value = some h → K h) : (node.handle e).Within K := by
  cases e with
  | propose v b =>
      obtain ⟨hqueue, hprevotes, hprecommits, hwithin, hcommit⟩ := hnode
      refine ⟨?_, hprevotes, hprecommits, hwithin.apply (.propose (some b)) he, nofun⟩
      intro m hm h hvalue
      rcases List.mem_cons.mp hm with rfl | hold
      · exact he h hvalue
      · exact hqueue m hold h hvalue
  | proposal v p =>
      exact hnode.message (hnode.collected ⟨0⟩) (.proposal p) he
        (ceState_handleProposal _ node.engine p) (observe_handleProposal _ node.engine [] p)
  | prevote v p =>
      have hreceived := hnode.receivePrevote he
      exact hreceived.message (hreceived.collected ⟨0⟩) (.prevote p) he
        (ceState_handlePrevote ((node.receivePrevote p).collected ⟨0⟩) node.engine p)
        (observe_handlePrevote ((node.receivePrevote p).collected ⟨0⟩) node.engine [] p)
  | precommit v p now =>
      have hreceived := hnode.receivePrecommit he
      exact hreceived.message (hreceived.collected now) (.precommit p) he
        (ceState_handlePrecommit ((node.receivePrecommit p).collected now) node.engine p)
        (observe_handlePrecommit ((node.receivePrecommit p).collected now) node.engine [] p)
  | commit v c =>
      exact hnode.message (hnode.collected ⟨0⟩) (.commit c) he
        (ceState_handleCommit _ node.engine c) (observe_handleCommit _ node.engine [] c)
  | timeout v now =>
      obtain ⟨hqueue, hprevotes, hprecommits, hwithin, hcommit⟩ := hnode
      exact ⟨hqueue, hprevotes, hprecommits,
        ⟨hwithin.proposed, hwithin.locked, hwithin.valid, hwithin.decided⟩, nofun⟩

/-! ### Systems -/

variable (K) in
structure System.Within (s : System) : Prop where
  sent : ∀ m ∈ s.sent, ∀ h, m.value = some h → K h
  nodes : ∀ v, (s.nodes v).Within K

theorem Node.Within.mono {K' : BlockHash → Prop} (hsub : ∀ h, K h → K' h)
    (hnode : node.Within K) : node.Within K' where
  queue m hm h hvalue := hsub h (hnode.queue m hm h hvalue)
  prevotes p hp h hblock := hsub h (hnode.prevotes p hp h hblock)
  precommits p hp h hblock := hsub h (hnode.precommits p hp h hblock)
  state :=
    { proposed := fun h heq => hsub h (hnode.state.proposed h heq)
      locked := fun h heq => hsub h (hnode.state.locked h heq)
      valid := fun h heq => hsub h (hnode.state.valid h heq)
      decided := fun h heq => hsub h (hnode.state.decided h heq) }
  commit := hnode.commit

theorem System.Within.mono {K' : BlockHash → Prop} (hsub : ∀ h, K h → K' h) {s : System}
    (hs : s.Within K) : s.Within K' where
  sent m hm h hvalue := hsub h (hs.sent m hm h hvalue)
  nodes v := (hs.nodes v).mono hsub

theorem FaultModel.forall_nodes_after {P : ValidatorId → Node → Prop} {s : System} {e : Event}
    (htarget : P e.target ((s.nodes e.target).handle e).flush)
    (hothers : ∀ v, v ≠ e.target → P v (s.nodes v)) (v : ValidatorId) :
    P v ((FaultModel.after s e).nodes v) :=
  (Function.forall_update_iff s.nodes P).mpr ⟨htarget, hothers⟩ v

theorem System.Within.after {s : System} (hs : s.Within K) {e : Event}
    (he : ∀ h, e.value = some h → K h) : (FaultModel.after s e).Within K := by
  have hhandled := (hs.nodes e.target).handle he
  constructor
  · intro m hm
    rcases List.mem_append.mp hm with hm | hm
    · exact hhandled.queue m hm
    · exact hs.sent m hm
  · refine FaultModel.forall_nodes_after (P := fun _ node => node.Within K) ?_ ?_
    · exact { hhandled with queue := fun m hm => absurd hm List.not_mem_nil }
    · exact fun v _ => hs.nodes v

end Known

namespace FaultModel

variable (M : FaultModel)

/-- The event is a proposal of a correct validator for the block, or the delivery of a
proposal or a vote for it that a Byzantine validator has made up. -/
def Introduces (h : BlockHash) : Event → Prop
  | .propose _ b => b = h
  | .proposal _ p => M.byzantine p.pmProposer = true ∧ p.pmBlockHash = h
  | .prevote _ p => M.byzantine p.prSender = true ∧ p.prBlockHash = some h
  | .precommit _ p _ => M.byzantine p.pcSender = true ∧ p.pcBlockHash = some h
  | .commit _ _ | .timeout _ _ => False

variable {M} {K : BlockHash → Prop} {s : System}

theorem value_of_admissible (hs : s.Within K) {e : Event} (hadm : M.Admissible s e)
    {h : BlockHash} (hvalue : e.value = some h) : K h ∨ M.Introduces h e := by
  cases e with
  | propose v b => exact Or.inr (Option.some.inj hvalue)
  | proposal v p =>
      rcases hadm.2 with hbyz | hsent
      · exact Or.inr ⟨hbyz, Option.some.inj hvalue⟩
      · exact Or.inl (hs.sent _ hsent h hvalue)
  | prevote v p =>
      rcases hadm.2 with hbyz | hsent
      · exact Or.inr ⟨hbyz, hvalue⟩
      · exact Or.inl (hs.sent _ hsent h hvalue)
  | precommit v p now =>
      rcases hadm.2 with hbyz | hsent
      · exact Or.inr ⟨hbyz, hvalue⟩
      · exact Or.inl (hs.sent _ hsent h hvalue)
  | commit v c => cases hvalue
  | timeout v now => cases hvalue

theorem run_cons_eq_some {e : Event} {events : List Event} {s' : System}
    (h : M.run s (e :: events) = some s') :
    M.Admissible s e ∧ M.run (after s e) events = some s' := by
  obtain ⟨next, hstep, hrest⟩ := Option.bind_eq_some_iff.mp h
  obtain ⟨hadm, rfl⟩ := step_eq_some_iff.mp hstep
  exact ⟨hadm, hrest⟩

theorem within_run {events : List Event} {s' : System} (hs : s.Within K)
    (hrun : M.run s events = some s') :
    s'.Within fun h => K h ∨ ∃ e ∈ events, M.Introduces h e := by
  induction events generalizing s K with
  | nil =>
      cases hrun
      exact hs.mono fun h hk => Or.inl hk
  | cons e events ih =>
      obtain ⟨hadm, hrest⟩ := run_cons_eq_some hrun
      have hnext : (after s e).Within fun h => K h ∨ M.Introduces h e :=
        (hs.mono fun h hk => Or.inl hk).after fun h => value_of_admissible hs hadm
      refine (ih hnext hrest).mono ?_
      rintro h ((hk | hfirst) | ⟨e', he', hlater⟩)
      · exact Or.inl hk
      · exact Or.inr ⟨e, List.mem_cons_self, hfirst⟩
      · exact Or.inr ⟨e', List.mem_cons_of_mem e he', hlater⟩

end FaultModel

theorem within_init (now : Timestamp) (config : ValidatorId → ConsensusConfig)
    (privKey : ValidatorId → PrivateKey) (vset : ValidatorSet) :
    (System.init now config privKey vset).Within fun _ => False where
  sent := nofun
  nodes _ := ⟨nofun, nofun, nofun, ⟨nofun, nofun, nofun, nofun⟩, nofun⟩

/-- In every run of the network, whatever the order of the events: a block that an engine has
locked or decided on, or that a correct validator has voted for, was proposed by a correct
validator or delivered in a message of a Byzantine one. -/
theorem block_introduced (M : FaultModel) (now : Timestamp)
    (config : ValidatorId → ConsensusConfig) (privKey : ValidatorId → PrivateKey)
    {events : List Event} {s : System}
    (hrun : M.run (System.init now config privKey M.vset) events = some s) {h : BlockHash}
    (hblock : (∃ v, (s.nodes v).engine.ceState.csDecision = some h) ∨
      (∃ v, (s.nodes v).engine.ceState.csLockedBlock = some h) ∨
      ∃ m ∈ s.sent, m.value = some h) :
    ∃ e ∈ events, M.Introduces h e := by
  have hwithin := FaultModel.within_run (within_init now config privKey M.vset) hrun
  rcases hblock with ⟨v, hdecided⟩ | ⟨v, hlocked⟩ | ⟨m, hm, hvalue⟩
  · exact ((hwithin.nodes v).state.decided h hdecided).resolve_left id
  · exact ((hwithin.nodes v).state.locked h hlocked).resolve_left id
  · exact (hwithin.sent m hm h hvalue).resolve_left id

open FourValidators in
/-- The third validator decides on the block that the Byzantine proposer has sent to it. -/
theorem block_introduced_schedule :
    ∃ s, faultModel.run initial (schedule (block 1) (block 2)) = some s ∧
      decision s 2 = some (block 2) ∧
      ∃ e ∈ schedule (block 1) (block 2), faultModel.Introduces (block 2) e := by
  have hdecides : (faultModel.run initial (schedule (block 1) (block 2))).map
      (fun s => decision s 2) = some (some (block 2)) := by decide +kernel
  obtain ⟨s, hrun, hdecided⟩ := Option.map_eq_some_iff.mp hdecides
  refine ⟨s, hrun, hdecided, ?_⟩
  exact block_introduced faultModel ⟨0⟩ (fun _ => ⟨1000⟩)
    (fun v => ⟨v.address.bytes ++ List.replicate 12 0⟩) hrun (Or.inl ⟨_, hdecided⟩)

/-! ### Quorums behind decisions -/

theorem firstPerSender_concat {α : Type} (sender : α → ValidatorId) (l : List α) (a : α) :
    ∃ rest, firstPerSender sender (l ++ [a]) = firstPerSender sender l ++ rest := by
  induction l with
  | nil => exact ⟨_, (List.nil_append _).symm⟩
  | cons b l ih =>
      obtain ⟨rest, hrest⟩ := ih
      refine ⟨rest.filter fun c => sender c ≠ sender b, ?_⟩
      rw [List.cons_append, firstPerSender, hrest, List.filter_append, firstPerSender,
        List.cons_append]

theorem Node.collectPrecommits_receivePrecommit (node : Node) (p : PrecommitMsg)
    (round : ConsensusRound) :
    ∃ rest, (node.receivePrecommit p).collectPrecommits round =
      node.collectPrecommits round ++ rest := by
  simp only [collectPrecommits, receivePrecommit, List.filter_append]
  by_cases hround : p.pcRound = round
  · rw [List.filter_cons_of_pos (by simpa using hround), List.filter_nil]
    exact firstPerSender_concat _ _ p
  · rw [List.filter_cons_of_neg (by simpa using hround), List.filter_nil, List.append_nil]
    exact ⟨[], (List.append_nil _).symm⟩

theorem superMajority_mono {vset : ValidatorSet} (hexact : vset.Exact) {A B : Finset ValidatorId}
    (hsub : A ⊆ B) (h : superMajority vset A = true) : superMajority vset B = true := by
  rw [superMajority_iff hexact] at h ⊢
  have hle := QuorumSystem.weight_mono vset.members (p := (· ∈ A)) (q := (· ∈ B)) fun a ha =>
    hsub ha
  omega

theorem firstBlock_append {votes : List (Option BlockHash)} {h : BlockHash}
    (hfirst : firstBlock votes = some h) (more : List (Option BlockHash)) :
    firstBlock (votes ++ more) = some h := by
  cases votes with
  | nil => cases hfirst
  | cons vote votes =>
      cases vote with
      | none => cases hfirst
      | some b => exact hfirst

/-- The delivered precommits of a round are from a super-majority, the first for the block. -/
def Node.HasCommit (node : Node) (vset : ValidatorSet) (h : BlockHash) : Prop :=
  ∃ round, superMajority vset (precommitSenders (node.collectPrecommits round)) = true ∧
    firstBlock ((node.collectPrecommits round).map PrecommitMsg.pcBlockHash) = some h

theorem Node.HasCommit.receivePrecommit {node : Node} {vset : ValidatorSet} (hexact : vset.Exact)
    {h : BlockHash} (hcommit : node.HasCommit vset h) (p : PrecommitMsg) :
    (node.receivePrecommit p).HasCommit vset h := by
  obtain ⟨round, hmaj, hfirst⟩ := hcommit
  obtain ⟨rest, hrest⟩ := node.collectPrecommits_receivePrecommit p round
  refine ⟨round, ?_, ?_⟩
  · refine superMajority_mono hexact ?_ hmaj
    rw [hrest, precommitSenders, precommitSenders, List.map_append, List.toFinset_append]
    exact Finset.subset_union_left
  · rw [hrest, List.map_append]
    exact firstBlock_append hfirst _

/-- A decision at a node has its quorum there. -/
structure Node.Backed (vset : ValidatorSet) (node : Node) : Prop where
  validatorSet : node.engine.ceState.csValidatorSet = vset
  commit : CommitDecided node.engine.ceState
  decided : ∀ h, node.engine.ceState.csDecision = some h → node.HasCommit vset h

section Backed

variable {vset : ValidatorSet} {node : Node}

theorem Node.Backed.message (hnode : node.Backed vset) (msg : ConsensusMessage)
    {answers : Answers}
    (hanswers : answers.precommits = node.collectPrecommits node.engine.ceState.csRound)
    {engine' : ConsensusEngine}
    (hstate : engine'.ceState =
      ((Task.applyConsensusMessage msg).move answers node.engine).apply node.engine.ceState) :
    Node.Backed vset { node with engine := engine' } := by
  obtain ⟨hvset, hcommit, hdecided⟩ := hnode
  refine ⟨?_, ?_, ?_⟩
  · change engine'.ceState.csValidatorSet = vset
    rw [hstate, ← hvset]
    cases (Task.applyConsensusMessage msg).move answers node.engine with
    | _ => rfl
  · change CommitDecided engine'.ceState
    rw [hstate]
    exact hcommit.apply _
  · intro h hafter
    change engine'.ceState.csDecision = some h at hafter
    change node.HasCommit vset h
    rw [hstate] at hafter
    by_cases hsame : (((Task.applyConsensusMessage msg).move answers node.engine).apply
        node.engine.ceState).csDecision = node.engine.ceState.csDecision
    · exact hdecided h (hsame.symm.trans hafter)
    · -- only a precommit decides, by the votes that are collected in this round
      obtain ⟨p, hp⟩ := exists_precommit_of_csDecision_ne hcommit hsame
      rw [hp, Task.move, hanswers] at hafter
      split at hafter
      · next hmaj =>
          split at hafter
          · next b hfirst =>
              obtain rfl := Option.some.inj hafter
              exact ⟨_, hvset ▸ hmaj, hfirst⟩
          · exact hdecided h hafter
      · exact hdecided h hafter

theorem Node.Backed.handle (hexact : vset.Exact) (hnode : node.Backed vset) (e : Event) :
    (node.handle e).Backed vset := by
  cases e with
  | propose v b => exact ⟨hnode.validatorSet, nofun, hnode.decided⟩
  | proposal v p =>
      have hcollected : (node.collected ⟨0⟩).precommits =
          node.collectPrecommits node.engine.ceState.csRound := rfl
      exact hnode.message (.proposal p) hcollected (ceState_handleProposal _ node.engine p)
  | prevote v p =>
      have hreceived : (node.receivePrevote p).Backed vset :=
        ⟨hnode.validatorSet, hnode.commit, hnode.decided⟩
      exact hreceived.message (.prevote p) rfl
        (ceState_handlePrevote ((node.receivePrevote p).collected ⟨0⟩) node.engine p)
  | precommit v p now =>
      have hreceived : (node.receivePrecommit p).Backed vset :=
        ⟨hnode.validatorSet, hnode.commit,
          fun h hdecision => (hnode.decided h hdecision).receivePrecommit hexact p⟩
      exact hreceived.message (.precommit p) rfl
        (ceState_handlePrecommit ((node.receivePrecommit p).collected now) node.engine p)
  | commit v c =>
      have hcollected : (node.collected ⟨0⟩).precommits =
          node.collectPrecommits node.engine.ceState.csRound := rfl
      exact hnode.message (.commit c) hcollected (ceState_handleCommit _ node.engine c)
  | timeout v now => exact ⟨hnode.validatorSet, nofun, hnode.decided⟩

end Backed

namespace FaultModel

variable {M : FaultModel} {s : System}

variable (M) in
/-- Every decision has its quorum, and every delivered precommit an author. -/
structure Backed (s : System) : Prop where
  nodes : ∀ v, (s.nodes v).Backed M.vset
  authentic : ∀ v, ∀ p ∈ (s.nodes v).precommits,
    M.byzantine p.pcSender = true ∨ .precommit p ∈ s.sent

theorem mem_precommits_handle {node : Node} {e : Event} {p : PrecommitMsg}
    (h : p ∈ (node.handle e).precommits) :
    p ∈ node.precommits ∨ ∃ v now, e = .precommit v p now := by
  cases e with
  | precommit v q now =>
      rcases List.mem_append.mp h with hold | hnew
      · exact Or.inl hold
      · rw [List.mem_singleton.mp hnew]
        exact Or.inr ⟨v, now, rfl⟩
  | _ => exact Or.inl h

theorem Backed.after (hs : M.Backed s) {e : Event} (hadm : M.Admissible s e) :
    M.Backed (after s e) := by
  have hkeep : ∀ p : PrecommitMsg, M.byzantine p.pcSender = true ∨ .precommit p ∈ s.sent →
      M.byzantine p.pcSender = true ∨ .precommit p ∈ (FaultModel.after s e).sent := by
    intro p hp
    exact hp.imp_right (List.mem_append_right _)
  constructor
  · refine forall_nodes_after (P := fun _ node => node.Backed M.vset) ?_ ?_
    · obtain ⟨hvset, hcommit, hdecided⟩ := (hs.nodes e.target).handle M.exact e
      exact ⟨hvset, hcommit, hdecided⟩
    · exact fun v _ => hs.nodes v
  · refine forall_nodes_after (P := fun _ node => ∀ p ∈ node.precommits,
      M.byzantine p.pcSender = true ∨ .precommit p ∈ (FaultModel.after s e).sent) ?_ ?_
    · intro p hp
      rcases mem_precommits_handle hp with hold | ⟨w, now, rfl⟩
      · exact hkeep p (hs.authentic e.target p hold)
      · exact hkeep p hadm.2
    · exact fun v _ p hp => hkeep p (hs.authentic v p hp)

theorem backed_init (M : FaultModel) (now : Timestamp) (config : ValidatorId → ConsensusConfig)
    (privKey : ValidatorId → PrivateKey) : M.Backed (System.init now config privKey M.vset) where
  nodes _ := ⟨rfl, nofun, nofun⟩
  authentic := nofun

theorem Backed.run {events : List Event} {s' : System} (hs : M.Backed s)
    (hrun : M.run s events = some s') : M.Backed s' := by
  induction events generalizing s with
  | nil =>
      cases hrun
      exact hs
  | cons e events ih =>
      obtain ⟨hadm, hrest⟩ := run_cons_eq_some hrun
      exact ih (hs.after hadm) hrest

end FaultModel

/-- In every run of the network, whatever the order of the events: an engine that has decided
on a block has the precommits of a super-majority in one round, the first of them for the
block, and correct validators among the senders have sent theirs. -/
theorem decision_backed (M : FaultModel) (now : Timestamp)
    (config : ValidatorId → ConsensusConfig) (privKey : ValidatorId → PrivateKey)
    {events : List Event} {s : System}
    (hrun : M.run (System.init now config privKey M.vset) events = some s)
    {v : ValidatorId} {h : BlockHash}
    (hdecided : (s.nodes v).engine.ceState.csDecision = some h) :
    ∃ round, superMajority M.vset
        (precommitSenders ((s.nodes v).collectPrecommits round)) = true ∧
      firstBlock (((s.nodes v).collectPrecommits round).map PrecommitMsg.pcBlockHash) = some h ∧
      ∀ p ∈ (s.nodes v).collectPrecommits round,
        M.byzantine p.pcSender = true ∨ .precommit p ∈ s.sent := by
  have hbacked := (M.backed_init now config privKey).run hrun
  obtain ⟨round, hmaj, hfirst⟩ := (hbacked.nodes v).decided h hdecided
  refine ⟨round, hmaj, hfirst, ?_⟩
  intro p hp
  exact hbacked.authentic v p (FaultModel.mem_collectPrecommits hp).1

open FourValidators in
/-- The decision of the third validator has its quorum, although the second one decides on
another block. -/
theorem decision_backed_schedule :
    ∃ s, faultModel.run initial (schedule (block 1) (block 2)) = some s ∧
      decision s 2 = some (block 2) ∧
      ∃ round, superMajority vset
        (precommitSenders ((s.nodes (validator 2)).collectPrecommits round)) = true := by
  have hdecides : (faultModel.run initial (schedule (block 1) (block 2))).map
      (fun s => decision s 2) = some (some (block 2)) := by decide +kernel
  obtain ⟨s, hrun, hdecided⟩ := Option.map_eq_some_iff.mp hdecides
  refine ⟨s, hrun, hdecided, ?_⟩
  obtain ⟨round, hmaj, _⟩ := decision_backed faultModel ⟨0⟩ (fun _ => ⟨1000⟩)
    (fun v => ⟨v.address.bytes ++ List.replicate 12 0⟩) hrun hdecided
  exact ⟨round, hmaj⟩

end Consensus

end CryptoCoin
