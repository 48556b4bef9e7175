import CryptoCoin.Consensus.ValueQuorum
import CryptoCoin.Library.VoteHistory
import Mathlib.Logic.Function.Basic
import Mathlib.Logic.Relation

/-!
# Engines on a network

Every validator that is not Byzantine runs an engine. A `System` holds the
engines, the votes delivered to each and the messages that they have sent, newest
first. An `Event` lets one engine propose, time out or receive a message; the
order of events is arbitrary, so a message may be delayed, lost, reordered or
delivered twice. Senders are authentic: a message in the name of a correct
validator must have been sent by it, and Byzantine validators may send anything
to anyone at any time.

Two stubs of the source are replaced here by what their comments announce. `collectVotes`
returns the votes of the current phase and round that were delivered so far, one per
sender, in the order of arrival, and a proposal holds a real block (`proposeRealBlock`).

`SoundStep` is the condition on a step under which the engines agree. It says of
the state before the step what the handlers do not check.
-/

namespace CryptoCoin

namespace Consensus

open Protocol (ValidatorId Timestamp PrivateKey)

/-- A validator set with exact totals, of which the Byzantine validators hold less
than a third of the power. -/
structure FaultModel where
  vset : ValidatorSet
  byzantine : ValidatorId → Bool
  exact : vset.Exact
  minority : 3 * QuorumSystem.weight vset.members (fun v => byzantine v = true) <
    QuorumSystem.total vset.members

/-! ### Nodes -/

/-- The elements whose sender does not occur before them. -/
def firstPerSender {α : Type} (sender : α → ValidatorId) : List α → List α
  | [] => []
  | a :: l => a :: (firstPerSender sender l).filter fun b => sender b ≠ sender a

theorem firstPerSender_subset {α : Type} (sender : α → ValidatorId) (l : List α) :
    firstPerSender sender l ⊆ l := by
  induction l with
  | nil => exact List.Subset.refl _
  | cons a l ih =>
      intro b hb
      rcases List.mem_cons.mp hb with rfl | hb
      · exact List.mem_cons_self
      · exact List.mem_cons_of_mem _ (ih (List.mem_of_mem_filter hb))

theorem mem_of_mem_firstPerSender {α : Type} {sender : α → ValidatorId}
    {round : α → ConsensusRound} {l : List α} {r : ConsensusRound} {a : α}
    (h : a ∈ firstPerSender sender (l.filter fun b => round b = r)) : a ∈ l ∧ round a = r := by
  have hmem := List.mem_filter.mp (firstPerSender_subset _ _ h)
  exact ⟨hmem.1, of_decide_eq_true hmem.2⟩

/-- An engine with the votes delivered to it, in the order of arrival. -/
structure Node where
  engine : ConsensusEngine
  prevotes : List PrevoteMsg
  precommits : List PrecommitMsg

namespace Node

def collectPrevotes (node : Node) (round : ConsensusRound) : List PrevoteMsg :=
  firstPerSender PrevoteMsg.prSender (node.prevotes.filter fun p => p.prRound = round)

def collectPrecommits (node : Node) (round : ConsensusRound) : List PrecommitMsg :=
  firstPerSender PrecommitMsg.pcSender (node.precommits.filter fun p => p.pcRound = round)

def receivePrevote (node : Node) (p : PrevoteMsg) : Node :=
  { node with prevotes := node.prevotes ++ [p] }

def receivePrecommit (node : Node) (p : PrecommitMsg) : Node :=
  { node with precommits := node.precommits ++ [p] }

end Node

/-! ### Systems -/

structure System where
  nodes : ValidatorId → Node
  sent : List ConsensusMessage

inductive Event where
  | propose (validator : ValidatorId) (blockHash : BlockHash)
  | proposal (receiver : ValidatorId) (p : ProposalMsg)
  | prevote (receiver : ValidatorId) (p : PrevoteMsg)
  | precommit (receiver : ValidatorId) (p : PrecommitMsg) (now : Timestamp)
  | commit (receiver : ValidatorId) (c : CommitMsg)
  | timeout (validator : ValidatorId) (now : Timestamp)

def Event.target : Event → ValidatorId
  | propose v _ => v
  | proposal v _ => v
  | prevote v _ => v
  | precommit v _ _ => v
  | commit v _ => v
  | timeout v _ => v

/-- `proposeBlock` with a real block in the place of the undefined one. -/
def proposeRealBlock (engine : ConsensusEngine) (blockHash : BlockHash) : ConsensusEngine :=
  announce engine (.proposal (proposalMsg engine blockHash)) (some blockHash)

/-- The node after its engine has handled the event, with what it broadcasts still
in the queue. -/
def Node.handle (node : Node) : Event → Node
  | .propose _ blockHash => { node with engine := proposeRealBlock node.engine blockHash }
  | .proposal _ p => { node with engine := handleProposal node.engine p }
  | .prevote _ p =>
      let node := node.receivePrevote p
      { node with
        engine := handlePrevote (fun _ _ round => node.collectPrevotes round) node.engine p }
  | .precommit _ p now =>
      let node := node.receivePrecommit p
      { node with
        engine := handlePrecommit (fun _ _ round => node.collectPrecommits round) now
          node.engine p }
  | .commit _ c => { node with engine := handleCommit node.engine c }
  | .timeout _ now => { node with engine := timeoutHandler now node.engine }

section Branches

variable {node : Node} (v : ValidatorId)

theorem Node.handle_prevote_eq_sendPrecommit {p : PrevoteMsg}
    (hmaj : superMajority node.engine.ceState.csValidatorSet (prevoteSenders
      ((node.receivePrevote p).collectPrevotes node.engine.ceState.csRound)) = true)
    {b : Option BlockHash}
    (hfirst : firstBlock (((node.receivePrevote p).collectPrevotes
      node.engine.ceState.csRound).map PrevoteMsg.prBlockHash) = b) :
    node.handle (.prevote v p) =
      { node.receivePrevote p with
        engine := sendPrecommit (node.engine.modifyState
          (lockOn b node.engine.ceState.csRound)) b } :=
  congrArg (fun engine => { node.receivePrevote p with engine := engine })
    (@handlePrevote_eq_sendPrecommit node.engine
      (fun _ _ round => (node.receivePrevote p).collectPrevotes round) p hmaj b hfirst)

theorem Node.handle_prevote_eq_self {p : PrevoteMsg}
    (hmaj : superMajority node.engine.ceState.csValidatorSet (prevoteSenders
      ((node.receivePrevote p).collectPrevotes node.engine.ceState.csRound)) ≠ true)
    (hnil : superMajority node.engine.ceState.csValidatorSet (prevoteSenders (prevotesFor
      ((node.receivePrevote p).collectPrevotes node.engine.ceState.csRound) none)) ≠ true) :
    node.handle (.prevote v p) = node.receivePrevote p := by
  rw [← filter_isNone_eq_prevotesFor] at hnil
  exact congrArg (fun engine => { node.receivePrevote p with engine := engine })
    (@handlePrevote_eq_self node.engine
      (fun _ _ round => (node.receivePrevote p).collectPrevotes round) p hmaj hnil)

theorem Node.handle_precommit_eq_commitBlock {p : PrecommitMsg} {now : Timestamp}
    (hmaj : superMajority node.engine.ceState.csValidatorSet (precommitSenders
      ((node.receivePrecommit p).collectPrecommits node.engine.ceState.csRound)) = true)
    {b : BlockHash}
    (hfirst : firstBlock (((node.receivePrecommit p).collectPrecommits
      node.engine.ceState.csRound).map PrecommitMsg.pcBlockHash) = some b) :
    node.handle (.precommit v p now) =
      { node.receivePrecommit p with
        engine := (commitBlock node.engine b).modifyState fun s =>
          { s with csDecision := some b, csStep := .commitPhase } } :=
  congrArg (fun engine => { node.receivePrecommit p with engine := engine })
    (@handlePrecommit_eq_commitBlock node.engine
      (fun _ _ round => (node.receivePrecommit p).collectPrecommits round) now p hmaj b hfirst)

theorem Node.handle_precommit_eq_startNextRound {p : PrecommitMsg} {now : Timestamp}
    (hmaj : superMajority node.engine.ceState.csValidatorSet (precommitSenders
      ((node.receivePrecommit p).collectPrecommits node.engine.ceState.csRound)) = true)
    (hfirst : firstBlock (((node.receivePrecommit p).collectPrecommits
      node.engine.ceState.csRound).map PrecommitMsg.pcBlockHash) = none) :
    node.handle (.precommit v p now) =
      { node.receivePrecommit p with
        engine := startNextRound now node.engine node.engine.ceState.csRound } :=
  congrArg (fun engine => { node.receivePrecommit p with engine := engine })
    (@handlePrecommit_eq_startNextRound node.engine
      (fun _ _ round => (node.receivePrecommit p).collectPrecommits round) now p hmaj hfirst)

theorem Node.handle_precommit_eq_self {p : PrecommitMsg} {now : Timestamp}
    (hmaj : superMajority node.engine.ceState.csValidatorSet (precommitSenders
      ((node.receivePrecommit p).collectPrecommits node.engine.ceState.csRound)) ≠ true) :
    node.handle (.precommit v p now) = node.receivePrecommit p :=
  congrArg (fun engine => { node.receivePrecommit p with engine := engine })
    (@handlePrecommit_eq_self node.engine
      (fun _ _ round => (node.receivePrecommit p).collectPrecommits round) now p hmaj)

end Branches

def Node.flush (node : Node) : Node :=
  { node with engine := { node.engine with ceMsgQueue := [] } }

def System.init (now : Timestamp) (config : ValidatorId → ConsensusConfig)
    (privKey : ValidatorId → PrivateKey) (vset : ValidatorSet) : System :=
  { nodes := fun v => ⟨newConsensusEngine now (config v) (privKey v) v vset, [], []⟩
    sent := [] }

namespace FaultModel

variable (M : FaultModel)

/-- A message is authentic when its sender is Byzantine or has sent it. -/
def Authentic (s : System) (sender : ValidatorId) (m : ConsensusMessage) : Prop :=
  M.byzantine sender = true ∨ m ∈ s.sent

/-- Which events can happen: engines run at correct validators, messages are
authentic, and only the proposer of the round proposes. -/
def Admissible (s : System) : Event → Prop
  | .propose v _ =>
      M.byzantine v = false ∧
        shouldPropose (s.nodes v).engine.ceState.csRound
          (s.nodes v).engine.ceState.csValidatorSet v = some true
  | .proposal v p => M.byzantine v = false ∧ M.Authentic s p.pmProposer (.proposal p)
  | .prevote v p => M.byzantine v = false ∧ M.Authentic s p.prSender (.prevote p)
  | .precommit v p _ => M.byzantine v = false ∧ M.Authentic s p.pcSender (.precommit p)
  | .commit v c => M.byzantine v = false ∧ M.Authentic s c.cmSender (.commit c)
  | .timeout v _ => M.byzantine v = false

instance (s : System) (sender : ValidatorId) (m : ConsensusMessage) :
    Decidable (M.Authentic s sender m) :=
  inferInstanceAs (Decidable (_ ∨ _))

instance (s : System) (e : Event) : Decidable (M.Admissible s e) :=
  match e with
  | .propose _ _ => inferInstanceAs (Decidable (_ ∧ _))
  | .proposal _ _ => inferInstanceAs (Decidable (_ ∧ _))
  | .prevote _ _ => inferInstanceAs (Decidable (_ ∧ _))
  | .precommit _ _ _ => inferInstanceAs (Decidable (_ ∧ _))
  | .commit _ _ => inferInstanceAs (Decidable (_ ∧ _))
  | .timeout _ _ => inferInstanceAs (Decidable (_ = _))

def step (s : System) (e : Event) : Option System :=
  if M.Admissible s e then
    let node := (s.nodes e.target).handle e
    some
      { nodes := Function.update s.nodes e.target node.flush
        sent := node.engine.ceMsgQueue ++ s.sent }
  else none

def run (s : System) : List Event → Option System
  | [] => some s
  | e :: es => do
      let s' ← M.step s e
      run s' es

end FaultModel

/-! ### The condition on steps -/

/-- The vote in a message, for votes that are not nil. -/
def ConsensusMessage.toVote : ConsensusMessage → Option (PhaseVote ValidatorId BlockHash)
  | .prevote p => p.prBlockHash.map fun h => .prevote p.prSender h p.prRound.unConsensusRound.toNat
  | .precommit p =>
      p.pcBlockHash.map fun h => .precommit p.pcSender h p.pcRound.unConsensusRound.toNat
  | _ => none

/-- The message is a prevote of the validator in the round for another block, or
for nil. -/
def ConsensusMessage.prevotesAgainst (v : ValidatorId) (round : ConsensusRound)
    (h : BlockHash) : ConsensusMessage → Bool
  | .prevote p => p.prSender = v && p.prRound = round && p.prBlockHash ≠ some h
  | _ => false

def voteHistory (sent : List ConsensusMessage) : List (PhaseVote ValidatorId BlockHash) :=
  sent.filterMap ConsensusMessage.toVote

namespace FaultModel

variable (M : FaultModel)

/-- More than two thirds of the power is Byzantine or has prevoted the block in
the round. -/
def HasPolka (s : System) (h : BlockHash) (round : ConsensusRound) : Prop :=
  2 * QuorumSystem.total M.vset.members <
    3 * QuorumSystem.weight M.vset.members fun v =>
      M.byzantine v = true ∨ .prevote v h round.unConsensusRound.toNat ∈ voteHistory s.sent

instance (s : System) (h : BlockHash) (round : ConsensusRound) :
    Decidable (M.HasPolka s h round) :=
  inferInstanceAs (Decidable (_ < _))

/-- The claimed valid round of a proposal had a polka for its block. -/
def ValidRoundBacked (s : System) (h : BlockHash) : Option ConsensusRound → Prop
  | some vr => M.HasPolka s h vr
  | none => False

instance (s : System) (h : BlockHash) (vr : Option ConsensusRound) :
    Decidable (M.ValidRoundBacked s h vr) :=
  match vr with
  | some vr => inferInstanceAs (Decidable (M.HasPolka s h vr))
  | none => inferInstanceAs (Decidable False)

/-- What the handlers do not check, as a condition on the state before the step.
A proposal that gets a vote is the only one the engine votes for in this round,
and against a lock its valid round had a real quorum. A quorum of votes is a
quorum for the value of the first one. A round that ends is not the last one. -/
def SoundStep (s : System) : Event → Prop
  | .propose _ _ => True
  | .proposal v p =>
      let state := (s.nodes v).engine.ceState
      p.pmRound = state.csRound →
        isRoundProposer state.csRound state.csValidatorSet p.pmProposer = some true →
        shouldVote state p = true →
        (∀ m ∈ s.sent, m.prevotesAgainst v state.csRound p.pmBlockHash = false) ∧
          (state.csLockedBlock = none ∨ state.csLockedBlock = some p.pmBlockHash ∨
            M.ValidRoundBacked s p.pmBlockHash p.pmValidRound)
  | .prevote v p =>
      let votes := ((s.nodes v).receivePrevote p).collectPrevotes
        (s.nodes v).engine.ceState.csRound
      superMajority M.vset (prevoteSenders votes) →
        superMajority M.vset (prevoteSenders
          (prevotesFor votes (firstBlock (votes.map PrevoteMsg.prBlockHash))))
  | .precommit v p _ =>
      let votes := ((s.nodes v).receivePrecommit p).collectPrecommits
        (s.nodes v).engine.ceState.csRound
      FirstPrecommitBacked M.vset votes ∧
        (superMajority M.vset (precommitSenders votes) →
          firstBlock (votes.map PrecommitMsg.pcBlockHash) = none →
          (s.nodes v).engine.ceState.csRound.unConsensusRound ≠ Protocol.maxWord64)
  | .commit _ _ => True
  | .timeout v _ => (s.nodes v).engine.ceState.csRound.unConsensusRound ≠ Protocol.maxWord64

instance (s : System) (e : Event) : Decidable (M.SoundStep s e) :=
  match e with
  | .propose _ _ => inferInstanceAs (Decidable True)
  | .proposal _ _ => inferInstanceAs (Decidable (_ → _ → _ → _ ∧ _))
  | .prevote _ _ => inferInstanceAs (Decidable (_ → _))
  | .precommit _ _ _ => inferInstanceAs (Decidable (_ ∧ (_ → _ → _)))
  | .commit _ _ => inferInstanceAs (Decidable True)
  | .timeout _ _ => inferInstanceAs (Decidable (_ ≠ _))

def SoundNext (s s' : System) : Prop := ∃ e, M.SoundStep s e ∧ M.step s e = some s'

end FaultModel

end Consensus

end CryptoCoin
