import NeonStorage.Safekeeper.Messages

/-!
# The walproposer

The state machine of `walproposer.c`: collecting terms, campaigning, and streaming WAL once
elected. A function returns `none` where the source ends the process (`FATAL`, `PANIC`, an access
through a freed pointer, the end of sync-safekeepers), and otherwise the new state together with
the messages it sends.

A connection slot belongs to one address of `neon.safekeepers`; slots are named by the node that
is reached there. The states in which a connection is being established or a message is being
flushed are not kept apart from the ones they lead to, and the broadcasts of append requests are
not part of the functions: an append request can be sent at any time to an active slot.

PostgreSQL's part is given from outside: `Compute` has what is fixed at the start of the process,
`wal` is the WAL of the compute once it is elected.
-/

namespace NeonStorage.WalProposer

open Safekeeper History

def MAX_SAFEKEEPERS : ℕ := 32
def MAX_SEND_SIZE : ℕ := XLOG_BLCKSZ * 16
/-! ## State -/

/-- `SafekeeperState`, in the order of the source. -/
inductive SlotState
  | offline
  | handshakeRecv
  | waitVoting
  | waitVerdict
  | waitElected
  | active
  deriving DecidableEq

/-- `state >= SS_WAIT_VOTING`: the node id is known. -/
def SlotState.greeted : SlotState → Bool
  | .offline | .handshakeRecv => false
  | _ => true

/-- `Safekeeper`: a connection slot. When the connection is shut down the entries of the vote
response's history are freed, while their number stays (`historyFreed`). `voteWal` is the WAL
that the voter had; the walproposer reads it later from there. -/
structure Slot where
  state : SlotState
  conn : Option ℕ
  nodeId : ℕ
  voteResponse : VoteResponse
  historyFreed : Bool
  voteWal : ℕ → UInt8
  appendResponse : AppendResponse
  startStreamingAt : ℕ
  streamingAt : ℕ

def Slot.new : Slot where
  state := .offline
  conn := none
  nodeId := 0
  voteResponse := ⟨0, 0, false, 0, 0, []⟩
  historyFreed := true
  voteWal := fun _ ↦ 0
  appendResponse := .termOnly 0 0
  startStreamingAt := 0
  streamingAt := 0

/-- What is fixed when the process starts: the parts of `neon.safekeepers` and of the
configuration, and what PostgreSQL says about the basebackup and the last term it was elected
in. -/
structure Compute where
  safekeepersGeneration : ℕ
  safekeepers : List ℕ
  syncSafekeepers : Bool
  walSegmentSize : ℕ
  redoStartLsn : ℕ
  replicaPromote : Bool
  mineLastElectedTerm : ℕ

inductive WpState
  | collectingTerms
  | campaign
  | elected
  deriving DecidableEq

end NeonStorage.WalProposer

namespace NeonStorage

open Safekeeper

/-- `WalProposer`. `mapped` stands for `members_safekeepers` and `new_members_safekeepers`: a
member points to the slot of its node once that node is in the list. `wal` is the WAL of the
compute, valid up to `walEnd`. -/
structure WalProposer where
  config : WalProposer.Compute
  mconf : Configuration
  mapped : List ℕ
  slot : ℕ → WalProposer.Slot
  nConnected : ℕ
  state : WalProposer.WpState
  propTerm : ℕ
  voteRequest : VoteRequest
  donor : Option ℕ
  donorLastLogTerm : ℕ
  propTermStartLsn : ℕ
  truncateLsn : ℕ
  propTermHistory : List Epoch
  availableLsn : ℕ
  commitLsn : ℕ
  wal : ℕ → UInt8
  walEnd : ℕ

end NeonStorage

namespace NeonStorage.WalProposer

open Safekeeper History

/-- The messages that are sent, with the slots they go to. -/
abbrev Outbox := List (ℕ × ProposerAcceptorMessage)

def create (config : Compute) : Option WalProposer :=
  if config.safekeepers = [] then none
  else if MAX_SAFEKEEPERS ≤ config.safekeepers.length then none
  else some
    { config
      mconf := .empty
      mapped := []
      slot := fun _ ↦ .new
      nConnected := 0
      state := .collectingTerms
      propTerm := 0
      voteRequest := ⟨0, 0⟩
      donor := none
      donorLastLogTerm := 0
      propTermStartLsn := 0
      truncateLsn := 0
      propTermHistory := []
      availableLsn := 0
      commitLsn := 0
      wal := fun _ ↦ 0
      walEnd := 0 }

variable (wp : WalProposer) (i : ℕ)

def setSlot (s : Slot) : WalProposer :=
  { wp with slot := Function.update wp.slot i s }

/-- Generations are disabled and no configuration is known. -/
def legacy : Bool :=
  wp.config.safekeepersGeneration == INVALID_GENERATION && wp.mconf.generation == INVALID_GENERATION

def newMembers (wp : WalProposer) : List SafekeeperId :=
  match wp.mconf.newMembers with
  | some n => n.m
  | none => []

/-! ## Connections -/

def shutdownConnection : WalProposer :=
  wp.setSlot i
    { wp.slot i with state := .offline, conn := none, historyFreed := true, streamingAt := 0 }

/-- `ResetConnection` and what follows until the greeting is sent over the new connection `c`. -/
def resetConnection (i c : ℕ) : WalProposer :=
  let wp := wp.shutdownConnection i
  wp.setSlot i { wp.slot i with state := .handshakeRecv, conn := some c }

/-! ## Collecting terms -/

def updateMemberSafekeeperPtr : Option WalProposer :=
  if MAX_SAFEKEEPERS < wp.mconf.members.m.length ∨ MAX_SAFEKEEPERS < wp.newMembers.length then none
  else if (wp.slot i).state.greeted = false then some wp
  else if (wp.slot i).nodeId = 0 then some wp
  else some { wp with mapped := (wp.slot i).nodeId :: wp.mapped }

/-- `ResetMemberSafekeeperPtrs`; the sizes are checked by the update that follows it. -/
def resetMemberSafekeeperPtrs : WalProposer :=
  let greeted := wp.config.safekeepers.filter fun i ↦
    (wp.slot i).state.greeted && (wp.slot i).nodeId != 0
  { wp with mapped := greeted.map fun i ↦ (wp.slot i).nodeId }

def msetQuorum (n : ℕ) : ℕ := n / 2 + 1

variable (mset : List SafekeeperId)

def termsCollectedMset : Bool :=
  msetQuorum mset.length ≤ mset.countP fun m ↦
    wp.mapped.contains m.id && (wp.slot m.id).state == .waitVoting

def termsCollected : Bool :=
  if wp.legacy then msetQuorum wp.config.safekeepers.length ≤ wp.nConnected
  else if wp.mconf.generation = INVALID_GENERATION then false
  else wp.termsCollectedMset wp.mconf.members.m &&
    (wp.newMembers.isEmpty || wp.termsCollectedMset wp.newMembers)

/-- `SendVoteRequest` to all slots that wait for it. -/
def sendVoteRequests : WalProposer × Outbox :=
  let waiting := wp.config.safekeepers.filter fun i ↦ (wp.slot i).state == .waitVoting
  ({ wp with slot := fun i ↦
      if i ∈ waiting then { wp.slot i with state := .waitVerdict } else wp.slot i },
    waiting.map fun i ↦ (i, .voteRequest wp.voteRequest))

/-- The step to the next term, which is the one of the campaign. -/
def startCampaign : WalProposer :=
  let propTerm := (wp.propTerm + 1) % 2 ^ 64
  { wp with state := .campaign, propTerm, voteRequest := ⟨wp.mconf.generation, propTerm⟩ }

/-- The configuration of a greeting is taken over if it is a later one, but not any more once a
campaign has begun. -/
def adoptMconf (mconf : Configuration) : Option WalProposer :=
  if wp.mconf.generation < mconf.generation then
    if mconf.members.m = [] then none
    else if wp.state ≠ .collectingTerms then none
    else some (resetMemberSafekeeperPtrs { wp with mconf })
  else some wp

def recvAcceptorGreeting (msg : AcceptorGreeting) : Option (WalProposer × Outbox) := do
  let wp ← wp.adoptMconf msg.mconf
  let wp := wp.setSlot i { wp.slot i with state := .waitVoting, nodeId := msg.nodeId }
  let wp ← wp.updateMemberSafekeeperPtr i
  let wp := { wp with nConnected := wp.nConnected + 1 }
  if wp.state = .collectingTerms then
    let wp := { wp with propTerm := max msg.term wp.propTerm }
    if wp.termsCollected then some wp.startCampaign.sendVoteRequests else some (wp, [])
  else if wp.propTerm < msg.term then none
  else some wp.sendVoteRequests

/-! ## The campaign -/

/-- The fields that `VotesCollected` computes, with the number of votes. -/
structure Tally where
  donor : Option ℕ
  donorLastLogTerm : ℕ
  propTermStartLsn : ℕ
  truncateLsn : ℕ
  nVotes : ℕ

/-- One turn of the loop over the votes: the highest one makes the donor. -/
def Tally.add (t : Tally) (i : ℕ) : Tally :=
  let r := (wp.slot i).voteResponse
  if (wp.slot i).state = .waitElected then
    if t.donorLastLogTerm < lastTerm r.termHistory ∨
        (lastTerm r.termHistory = t.donorLastLogTerm ∧ t.propTermStartLsn < r.flushLsn) ∨
        t.donor = none then
      ⟨some i, lastTerm r.termHistory, r.flushLsn, max r.truncateLsn t.truncateLsn, t.nVotes + 1⟩
    else { t with truncateLsn := max r.truncateLsn t.truncateLsn, nVotes := t.nVotes + 1 }
  else t

def mappedMembers : List ℕ :=
  (mset.map SafekeeperId.id).filter fun i ↦ wp.mapped.contains i

def votesCollectedMset (t : Tally) : Bool × Tally :=
  let t := (wp.mappedMembers mset).foldl (Tally.add wp) { t with nVotes := 0 }
  (msetQuorum mset.length ≤ t.nVotes, t)

/-- `VotesCollected`; the donor of an earlier call is kept. -/
def votesCollected : Bool × Tally :=
  let t : Tally := ⟨wp.donor, 0, 0, 0, 0⟩
  if wp.legacy then
    let t := wp.config.safekeepers.foldl (Tally.add wp) t
    (msetQuorum wp.config.safekeepers.length ≤ t.nVotes, t)
  else
    let r := wp.votesCollectedMset wp.mconf.members.m t
    if r.1 = false then r
    else if wp.newMembers = [] then r
    else wp.votesCollectedMset wp.newMembers r.2

def withTally (t : Tally) : WalProposer :=
  { wp with
    donor := t.donor
    donorLastLogTerm := t.donorLastLogTerm
    propTermStartLsn := t.propTermStartLsn
    truncateLsn := t.truncateLsn }

/-! ## The election -/

def skipXLogPageHeader (walSegmentSize lsn : ℕ) : ℕ :=
  if lsn % walSegmentSize = 0 then lsn + XLOG_SIZE_OF_XLOG_LONG_PHD
  else if lsn % XLOG_BLCKSZ = 0 then lsn + XLOG_SIZE_OF_XLOG_SHORT_PHD
  else lsn

/-- The basebackup does not match the position from which the compute would write, and the WAL
before it is not its own either. -/
def basebackupMismatch (start : ℕ) (donorHistory : List Epoch) : Bool :=
  !wp.config.syncSafekeepers && !wp.config.replicaPromote &&
    skipXLogPageHeader wp.config.walSegmentSize start != wp.config.redoStartLsn &&
    !(donorHistory.getLast?.any fun e ↦ e.term == wp.config.mineLastElectedTerm)

/-- `ProcessPropStartPos`: the history is the donor's and our own switch. A donor whose connection
is gone can still be set, with a history that was freed. -/
def processPropStartPos : Option WalProposer :=
  let bootstrap := wp.propTermStartLsn = 0
  if bootstrap ∧ wp.config.syncSafekeepers = true then none
  else
    let start := if bootstrap then wp.config.redoStartLsn else wp.propTermStartLsn
    match wp.donor with
    | none => none
    | some d =>
      let donorHistory := (wp.slot d).voteResponse.termHistory
      if (wp.slot d).historyFreed = true ∧ donorHistory ≠ [] then none
      else if wp.basebackupMismatch start donorHistory then none
      else some
        { wp with
          propTermStartLsn := start
          truncateLsn := if bootstrap then start else wp.truncateLsn
          availableLsn := start
          propTermHistory := donorHistory ++ [⟨wp.propTerm, start⟩] }

/-- The number of terms that two histories have in common from the beginning. -/
def commonTerms : List Epoch → List Epoch → ℕ
  | p :: propTh, q :: skTh => if p.term ≠ q.term then 0 else commonTerms propTh skTh + 1
  | _, _ => 0

/-- The point from which a safekeeper needs WAL, by the history it voted with. -/
def startStreamingAt (r : VoteResponse) : ℕ :=
  match commonTerms wp.propTermHistory r.termHistory with
  | 0 => start wp.propTermHistory
  | n + 1 =>
    if (wp.propTermHistory[n]?.map Epoch.term) = some wp.propTerm then r.flushLsn
    else min ((wp.propTermHistory[n + 1]?.map Epoch.lsn).getD 0)
      ((r.termHistory[n + 1]?.map Epoch.lsn).getD r.flushLsn)

def electedMsg : ProposerElected :=
  ⟨wp.mconf.generation, wp.propTerm, wp.startStreamingAt (wp.slot i).voteResponse,
    wp.propTermHistory⟩

/-- The slot after `SendProposerElected` and `StartStreaming`. -/
def startStreaming : Slot :=
  let lsn := wp.startStreamingAt (wp.slot i).voteResponse
  { wp.slot i with state := .active, startStreamingAt := lsn, streamingAt := lsn }

def sendProposerElected (nodes : List ℕ) : WalProposer × Outbox :=
  ({ wp with slot := fun i ↦ if i ∈ nodes then wp.startStreaming i else wp.slot i },
    nodes.map fun i ↦ (i, .elected (wp.electedMsg i)))

/-- `HandleElectedProposer`, with the WAL that PostgreSQL goes on to write. -/
def handleElectedProposer (wal : ℕ → UInt8) (walEnd : ℕ) : Option (WalProposer × Outbox) := do
  let wp ← processPropStartPos { wp with state := .elected, wal, walEnd }
  if wp.truncateLsn = wp.propTermStartLsn ∧ wp.config.syncSafekeepers = true then none
  else some (wp.sendProposerElected
    (wp.config.safekeepers.filter fun i ↦ (wp.slot i).state == .waitElected))

def recvVoteResponse (msg : VoteResponse) (voteWal wal : ℕ → UInt8) (walEnd : ℕ) :
    Option (WalProposer × Outbox) :=
  if msg.voteGiven = false ∧ (wp.propTerm < msg.term ∨ wp.state = .campaign) then none
  else
    let wp := wp.setSlot i { wp.slot i with
      voteResponse := msg, historyFreed := false, voteWal, state := .waitElected }
    if wp.state = .campaign then
      let r := wp.votesCollected
      if r.1 then (wp.withTally r.2).handleElectedProposer wal walEnd
      else some (wp.withTally r.2, [])
    else some (wp.sendProposerElected [i])

/-! ## Streaming -/

/-- `WalProposerBroadcast` without the sending: PostgreSQL has written more WAL. -/
def broadcast (endpos : ℕ) : WalProposer := { wp with availableLsn := endpos }

/-- The request that one turn of the loop in `SendAppendRequests` sends. -/
def appendRequest : AppendRequest :=
  let beginLsn := (wp.slot i).streamingAt
  let endLsn := min (beginLsn + MAX_SEND_SIZE) wp.availableLsn
  { h :=
      { generation := wp.mconf.generation
        term := wp.propTerm
        beginLsn, endLsn
        commitLsn := wp.commitLsn
        truncateLsn := wp.truncateLsn }
    walData := bytesAt wp.wal beginLsn (endLsn - beginLsn) }

/-- One turn of the loop in `SendAppendRequests`. -/
def sendAppendRequest : WalProposer × Outbox :=
  (wp.setSlot i { wp.slot i with streamingAt := (wp.appendRequest i).h.endLsn },
    [(i, .appendRequest (wp.appendRequest i))])

/-- What counts as acknowledged by a node: nothing until it has reached our own part of the
log. -/
def acked : ℕ :=
  let flushLsn := (wp.slot i).appendResponse.flushLsn
  if wp.propTermStartLsn ≤ flushLsn then flushLsn else 0

/-- The lowest value that the highest quorum of the responses has. -/
def quorumValue (responses : List ℕ) : ℕ :=
  ((responses.mergeSort (· ≤ ·))[responses.length - msetQuorum responses.length]?).getD 0

def getCommittedMset : ℕ :=
  quorumValue (mset.map fun m ↦ if wp.mapped.contains m.id then wp.acked m.id else 0)

def getAcknowledgedByQuorumWALPosition : ℕ :=
  if wp.legacy then quorumValue (wp.config.safekeepers.map wp.acked)
  else
    let committed := wp.getCommittedMset wp.mconf.members.m
    if wp.newMembers = [] then committed else min committed (wp.getCommittedMset wp.newMembers)

def calculateMinFlushLsn : ℕ :=
  ((wp.config.safekeepers.map fun i ↦ (wp.slot i).appendResponse.flushLsn).min?).getD 0

/-- All slots that are not offline know the commit of the term's start. -/
def allSynced : Bool :=
  wp.config.safekeepers.all fun i ↦
    (wp.slot i).state == .offline || wp.propTermStartLsn ≤ (wp.slot i).appendResponse.commitLsn

def handleSafekeeperResponse : Option WalProposer :=
  let newCommitLsn := wp.getAcknowledgedByQuorumWALPosition
  let commitLsn := max wp.commitLsn newCommitLsn
  let truncateLsn := max wp.truncateLsn (min wp.calculateMinFlushLsn commitLsn)
  if wp.config.syncSafekeepers = true ∧ wp.allSynced = true ∧ wp.propTermStartLsn ≤ newCommitLsn
  then none
  else some { wp with commitLsn, truncateLsn }

/-- `RecvAppendResponses` for one response. -/
def recvAppendResponse (msg : AppendResponse) : Option (WalProposer × Outbox) :=
  if msg.generation ≠ wp.mconf.generation then none
  else if wp.propTerm < msg.term then none
  else (wp.setSlot i { wp.slot i with appendResponse := msg }).handleSafekeeperResponse.map (·, [])

/-- `AdvancePollState` for a slot that has received a message: a message that the state of the slot
does not expect ends the connection. -/
def receive (msg : AcceptorProposerMessage) (voteWal wal : ℕ → UInt8) (walEnd : ℕ) :
    Option (WalProposer × Outbox) :=
  match (wp.slot i).state, msg with
  | .handshakeRecv, .greeting msg => wp.recvAcceptorGreeting i msg
  | .waitVerdict, .voteResponse msg => wp.recvVoteResponse i msg voteWal wal walEnd
  | .active, .appendResponse msg => wp.recvAppendResponse i msg
  | _, _ => some (wp.shutdownConnection i, [])

end NeonStorage.WalProposer
