import CryptoCoin.Consensus.Payload
import CryptoCoin.Protocol.Crypto

/-!
# The consensus engine

The handlers of `CryptoCoin.Consensus.Engine` as functions on the engine. The
transactional variables of the source are fields here, and a handler returns the
engine after all its writes. The clock is an argument.

`collectVotes` is a stub in the source. The handlers take it as a parameter, so
that results hold for every list of votes it may return. `roundProposer` indexes
the active validators and fails when there are none; a handler that meets the
failure has written nothing.

The last section says for each handler under which condition it takes which of its
branches; results about the engine use these lemmas and do not unfold the
handlers.
-/

namespace CryptoCoin

namespace Consensus

open Protocol (ValidatorId Signature PrivateKey Timestamp ByteString)

structure ConsensusMetrics where
  cmRoundsCompleted : UInt64
  cmBlocksProposed : UInt64
  cmBlocksCommitted : UInt64
  cmViewChanges : UInt64
  cmTimeouts : UInt64
  deriving DecidableEq

structure ConsensusEngine where
  ceState : ConsensusState
  ceConfig : ConsensusConfig
  cePrivKey : PrivateKey
  ceValidator : ValidatorId
  ceMsgQueue : List ConsensusMessage
  ceMetrics : ConsensusMetrics
  deriving DecidableEq

def newConsensusEngine (now : Timestamp) (config : ConsensusConfig) (privKey : PrivateKey)
    (validator : ValidatorId) (vset : ValidatorSet) : ConsensusEngine :=
  { ceState :=
      { csRound := ⟨0⟩
        csStep := .proposePhase
        csProposedBlock := none
        csValidatorSet := vset
        csLockedBlock := none
        csLockedRound := none
        csValidBlock := none
        csValidRound := none
        csDecision := none
        csRoundStart := now
        csTimeout := config.ccTimeoutPropose }
    ceConfig := config
    cePrivKey := privKey
    ceValidator := validator
    ceMsgQueue := []
    ceMetrics := ⟨0, 0, 0, 0, 0⟩ }

namespace ConsensusEngine

/-- `modifyTVar'` on the state. -/
def modifyState (engine : ConsensusEngine) (f : ConsensusState → ConsensusState) :
    ConsensusEngine :=
  { engine with ceState := f engine.ceState }

def modifyMetrics (engine : ConsensusEngine) (f : ConsensusMetrics → ConsensusMetrics) :
    ConsensusEngine :=
  { engine with ceMetrics := f engine.ceMetrics }

end ConsensusEngine

/-! ### Sending -/

def broadcastMessage (engine : ConsensusEngine) (msg : ConsensusMessage) : ConsensusEngine :=
  { engine with ceMsgQueue := msg :: engine.ceMsgQueue }

def signMessage (engine : ConsensusEngine) (data : ByteString) : Signature :=
  match Protocol.Crypto.sign engine.cePrivKey data with
  | some sig => sig
  | none => ⟨[]⟩

theorem signMessage_congr {engine engine' : ConsensusEngine}
    (h : engine.cePrivKey = engine'.cePrivKey) (data : ByteString) :
    signMessage engine data = signMessage engine' data := by
  unfold signMessage
  rw [h]

def prevoteMsg (engine : ConsensusEngine) (blockHash : Option BlockHash) : PrevoteMsg :=
  { prBlockHash := blockHash
    prRound := engine.ceState.csRound
    prSender := engine.ceValidator
    prSignature := signMessage engine (serializePrevote blockHash engine.ceState.csRound) }

def sendPrevote (engine : ConsensusEngine) (blockHash : Option BlockHash) : ConsensusEngine :=
  broadcastMessage engine (.prevote (prevoteMsg engine blockHash))

def precommitMsg (engine : ConsensusEngine) (blockHash : Option BlockHash) : PrecommitMsg :=
  { pcBlockHash := blockHash
    pcRound := engine.ceState.csRound
    pcSender := engine.ceValidator
    pcSignature := signMessage engine (serializePrecommit blockHash engine.ceState.csRound) }

def sendPrecommit (engine : ConsensusEngine) (blockHash : Option BlockHash) : ConsensusEngine :=
  broadcastMessage engine (.precommit (precommitMsg engine blockHash))

/-! ### Proposers -/

/-- The proposer of a round; `none` when no validator is active, where the
source divides by zero. The round is converted to a signed word first. -/
def roundProposer (round : ConsensusRound) (vset : ValidatorSet) : Option ValidatorId :=
  let active := activeValidators vset
  if active.length = 0 then none
  else
    let idx := (Int.bmod round.unConsensusRound.toNat (2 ^ 64)) % (active.length : ℤ)
    (active[idx.toNat]?).map fun v => ⟨v.viAddress⟩

def shouldPropose (round : ConsensusRound) (vset : ValidatorSet) (validatorId : ValidatorId) :
    Option Bool :=
  (roundProposer round vset).map fun proposer => proposer = validatorId

def isRoundProposer (round : ConsensusRound) (vset : ValidatorSet) (validatorId : ValidatorId) :
    Option Bool :=
  shouldPropose round vset validatorId

def ownProposal (engine : ConsensusEngine) : OwnProposal :=
  { pmRound := engine.ceState.csRound
    pmValidRound := engine.ceState.csValidRound
    pmProposer := engine.ceValidator
    pmSignature := signMessage engine
      (serializeProposal engine.ceState.csRound engine.ceValidator) }

/-- The updates of `proposeBlock` for a message and the hash of its block. -/
def announce (engine : ConsensusEngine) (msg : ConsensusMessage) (blockHash : Option BlockHash) :
    ConsensusEngine :=
  let engine := broadcastMessage engine msg
  let engine := engine.modifyMetrics fun m =>
    { m with cmBlocksProposed := m.cmBlocksProposed + 1 }
  engine.modifyState fun s =>
    { s with csProposedBlock := some blockHash, csStep := .prevotePhase }

def proposeBlock (engine : ConsensusEngine) : ConsensusEngine :=
  announce engine (.ownProposal (ownProposal engine)) none

/-- A proposal under the engine's name and key for a block that exists. No function of the
source makes one; it can only be delivered. -/
def proposalMsg (engine : ConsensusEngine) (blockHash : BlockHash) : ProposalMsg :=
  { pmBlockHash := blockHash
    pmRound := engine.ceState.csRound
    pmValidRound := engine.ceState.csValidRound
    pmProposer := engine.ceValidator
    pmSignature := signMessage engine
      (serializeProposal engine.ceState.csRound engine.ceValidator) }

/-! ### Rounds and decisions -/

/-- The source declares the state as the last argument and uses only its round;
`handlePrecommit` passes the round. -/
def startNextRound (now : Timestamp) (engine : ConsensusEngine) (round : ConsensusRound) :
    ConsensusEngine :=
  let engine := engine.modifyState fun s =>
    { s with
      csRound := ⟨round.unConsensusRound + 1⟩
      csStep := .proposePhase
      csRoundStart := now
      csTimeout := engine.ceConfig.ccTimeoutPropose }
  engine.modifyMetrics fun m => { m with cmRoundsCompleted := m.cmRoundsCompleted + 1 }

def timeoutHandler (now : Timestamp) (engine : ConsensusEngine) : ConsensusEngine :=
  let engine := engine.modifyMetrics fun m => { m with cmTimeouts := m.cmTimeouts + 1 }
  startNextRound now engine engine.ceState.csRound

def commitBlock (engine : ConsensusEngine) (_blockHash : BlockHash) : ConsensusEngine :=
  engine.modifyMetrics fun m => { m with cmBlocksCommitted := m.cmBlocksCommitted + 1 }

def finalizeBlock (engine : ConsensusEngine) (blockHash : BlockHash) : ConsensusEngine :=
  engine.modifyState fun s => { s with csDecision := some blockHash }

/-! ### Handlers -/

/-- The vote rule of `handleProposal`: unlocked, locked on this block, or told of
a valid round after the locked one. -/
def shouldVote (state : ConsensusState) (proposal : ProposalMsg) : Bool :=
  match state.csLockedBlock with
  | none => true
  | some lockedHash =>
      proposal.pmBlockHash = lockedHash || laterRound proposal.pmValidRound state.csLockedRound

def handleProposal (engine : ConsensusEngine) (proposal : ProposalMsg) : ConsensusEngine :=
  let state := engine.ceState
  let round := state.csRound
  if proposal.pmRound = round ∧
      isRoundProposer round state.csValidatorSet proposal.pmProposer = some true ∧
      shouldVote state proposal then
    (sendPrevote engine (some proposal.pmBlockHash)).modifyState fun s =>
      { s with csStep := .prevotePhase }
  else engine

/-- The value of the first vote; `none` also when there is no vote. -/
def firstBlock : List (Option BlockHash) → Option BlockHash
  | some h :: _ => some h
  | _ => none

def prevoteSenders (prevotes : List PrevoteMsg) : Finset ValidatorId :=
  (prevotes.map PrevoteMsg.prSender).toFinset

def precommitSenders (precommits : List PrecommitMsg) : Finset ValidatorId :=
  (precommits.map PrecommitMsg.pcSender).toFinset

/-- The state update of a polka. -/
def lockOn (blockHash : Option BlockHash) (round : ConsensusRound) (s : ConsensusState) :
    ConsensusState :=
  { s with
    csLockedBlock := blockHash
    csLockedRound := some round
    csValidBlock := blockHash
    csValidRound := some round
    csStep := .precommitPhase }

def handlePrevote
    (collectVotes : ConsensusEngine → ConsensusStep → ConsensusRound → List PrevoteMsg)
    (engine : ConsensusEngine) (_prevote : PrevoteMsg) : ConsensusEngine :=
  let state := engine.ceState
  let round := state.csRound
  let vset := state.csValidatorSet
  let prevotes := collectVotes engine .prevotePhase round
  if superMajority vset (prevoteSenders prevotes) then
    let blockHash := firstBlock (prevotes.map PrevoteMsg.prBlockHash)
    sendPrecommit (engine.modifyState (lockOn blockHash round)) blockHash
  else
    let nilPrevotes := prevotes.filter fun p => p.prBlockHash.isNone
    if superMajority vset (prevoteSenders nilPrevotes) then
      (sendPrecommit engine none).modifyState fun s => { s with csStep := .precommitPhase }
    else engine

def handlePrecommit
    (collectVotes : ConsensusEngine → ConsensusStep → ConsensusRound → List PrecommitMsg)
    (now : Timestamp) (engine : ConsensusEngine) (_precommit : PrecommitMsg) :
    ConsensusEngine :=
  let state := engine.ceState
  let round := state.csRound
  let vset := state.csValidatorSet
  let precommits := collectVotes engine .precommitPhase round
  if superMajority vset (precommitSenders precommits) then
    match firstBlock (precommits.map PrecommitMsg.pcBlockHash) with
    | some hash =>
        (commitBlock engine hash).modifyState fun s =>
          { s with csDecision := some hash, csStep := .commitPhase }
    | none => startNextRound now engine round
  else engine

def handleCommit (engine : ConsensusEngine) (commit : CommitMsg) : ConsensusEngine :=
  let state := engine.ceState
  if state.csStep = .commitPhase ∧
      commit.cmBlockHash = state.csDecision.getD commit.cmBlockHash then
    finalizeBlock engine commit.cmBlockHash
  else engine

/-! ### The branches of the handlers -/

section Branches

variable {engine : ConsensusEngine}

theorem handleProposal_eq_sendPrevote {p : ProposalMsg}
    (hround : p.pmRound = engine.ceState.csRound)
    (hproposer : isRoundProposer engine.ceState.csRound engine.ceState.csValidatorSet
      p.pmProposer = some true)
    (hvote : shouldVote engine.ceState p = true) :
    handleProposal engine p = (sendPrevote engine (some p.pmBlockHash)).modifyState fun s =>
      { s with csStep := .prevotePhase } :=
  if_pos ⟨hround, hproposer, hvote⟩

variable {collectPrevotes : ConsensusEngine → ConsensusStep → ConsensusRound → List PrevoteMsg}
  {p : PrevoteMsg}

theorem handlePrevote_eq_sendPrecommit
    (hmaj : superMajority engine.ceState.csValidatorSet (prevoteSenders
      (collectPrevotes engine .prevotePhase engine.ceState.csRound)) = true)
    {b : Option BlockHash}
    (hfirst : firstBlock ((collectPrevotes engine .prevotePhase engine.ceState.csRound).map
      PrevoteMsg.prBlockHash) = b) :
    handlePrevote collectPrevotes engine p =
      sendPrecommit (engine.modifyState (lockOn b engine.ceState.csRound)) b := by
  subst hfirst
  exact if_pos hmaj

theorem handlePrevote_eq_self
    (hmaj : superMajority engine.ceState.csValidatorSet (prevoteSenders
      (collectPrevotes engine .prevotePhase engine.ceState.csRound)) ≠ true)
    (hnil : superMajority engine.ceState.csValidatorSet (prevoteSenders
      ((collectPrevotes engine .prevotePhase engine.ceState.csRound).filter fun q =>
        q.prBlockHash.isNone)) ≠ true) :
    handlePrevote collectPrevotes engine p = engine :=
  (if_neg hmaj).trans (if_neg hnil)

variable {collectPrecommits : ConsensusEngine → ConsensusStep → ConsensusRound →
  List PrecommitMsg} {now : Timestamp} {q : PrecommitMsg}

theorem handlePrecommit_eq_commitBlock
    (hmaj : superMajority engine.ceState.csValidatorSet (precommitSenders
      (collectPrecommits engine .precommitPhase engine.ceState.csRound)) = true)
    {b : BlockHash}
    (hfirst : firstBlock ((collectPrecommits engine .precommitPhase engine.ceState.csRound).map
      PrecommitMsg.pcBlockHash) = some b) :
    handlePrecommit collectPrecommits now engine q =
      (commitBlock engine b).modifyState fun s =>
        { s with csDecision := some b, csStep := .commitPhase } := by
  simp only [handlePrecommit, hmaj, if_true, hfirst]

theorem handlePrecommit_eq_startNextRound
    (hmaj : superMajority engine.ceState.csValidatorSet (precommitSenders
      (collectPrecommits engine .precommitPhase engine.ceState.csRound)) = true)
    (hfirst : firstBlock ((collectPrecommits engine .precommitPhase engine.ceState.csRound).map
      PrecommitMsg.pcBlockHash) = none) :
    handlePrecommit collectPrecommits now engine q =
      startNextRound now engine engine.ceState.csRound := by
  simp only [handlePrecommit, hmaj, if_true, hfirst]

theorem handlePrecommit_eq_self
    (hmaj : superMajority engine.ceState.csValidatorSet (precommitSenders
      (collectPrecommits engine .precommitPhase engine.ceState.csRound)) ≠ true) :
    handlePrecommit collectPrecommits now engine q = engine :=
  if_neg hmaj

end Branches

end Consensus

end CryptoCoin
