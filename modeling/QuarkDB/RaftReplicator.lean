-- The replication of a leader: the commit tracker that counts what the targets
-- acknowledged, and one tracker for each target, which sends it the journal
-- round by round, or streams it once the target is stable.
import QuarkDB.RaftDispatcher

namespace quarkdb

/-! ## The commit tracker -/

structure RaftCommitTracker where
  targets : List RaftServer
  quorumSize : Nat
  /-- The match index of each server, 0 until it is updated. -/
  registrations : RaftServer → Int
  commitIndex : Int
  /-- The thread that commits everything when there is only one node. -/
  autoCommitter : Bool

namespace RaftCommitTracker

def updateTargets (t : RaftCommitTracker) (trgt : List RaftServer) : RaftCommitTracker :=
  { t with
    targets := trgt
    quorumSize := calculateQuorumSize (trgt.length + 1)
    autoCommitter := calculateQuorumSize (trgt.length + 1) = 1 }

/-- The targets and the auto-committer stay as they are. -/
def reset (t : RaftCommitTracker) : RaftCommitTracker :=
  { t with registrations := fun _ => 0, commitIndex := 0 }

/-- The constructor, which takes all nodes of the journal as targets. -/
def ofJournal (journal : RaftJournal) : RaftCommitTracker :=
  updateTargets
    { targets := [], quorumSize := 0, registrations := fun _ => 0, commitIndex := 0,
      autoCommitter := false }
    journal.members.nodes

def updateCommitIndex (t : RaftCommitTracker) (journal : RaftJournal) (newCommitIndex : Int) :
    RaftCommitTracker × RaftJournal :=
  if newCommitIndex < journal.commitIndex then (t, journal)
  else ({ t with commitIndex := newCommitIndex },
    ((RaftJournal.setCommitIndex newCommitIndex).on journal).2)

/-- The match index that a quorum has reached, the leader included. -/
def quorumIndex (t : RaftCommitTracker) : Except Fault Int :=
  let matchIndexes := (t.targets.map t.registrations).insertionSort (· ≤ ·)
  let threshold := (matchIndexes.length + 1) - t.quorumSize
  match matchIndexes[threshold]? with
  | some index => .ok index
  | none => .error .outOfBounds

def recalculateCommitIndex (t : RaftCommitTracker) (journal : RaftJournal) :
    RaftCommitTracker × RaftJournal :=
  -- With no targets the auto-committer is active.
  if t.targets = [] then (t, journal)
  else
    match t.quorumIndex with
    | .ok index => t.updateCommitIndex journal index
    | .error _ => (t, journal)

def updated (t : RaftCommitTracker) (journal : RaftJournal) (val : Int) :
    RaftCommitTracker × RaftJournal :=
  if val ≤ t.commitIndex then (t, journal) else t.recalculateCommitIndex journal

/-- `RaftMatchIndexTracker::update`, for the handler of a target. -/
def updateMatchIndex (t : RaftCommitTracker) (journal : RaftJournal) (target : RaftServer)
    (newMatchIndex : Int) : RaftCommitTracker × RaftJournal :=
  { t with registrations := fun s => if s = target then newMatchIndex else t.registrations s }.updated
    journal newMatchIndex

/-- One round of the auto-committer. -/
def runAutoCommit (journal : RaftJournal) : RaftJournal :=
  if journal.logSize - 1 ≠ journal.commitIndex then
    ((RaftJournal.setCommitIndex (journal.logSize - 1)).on journal).2
  else journal

end RaftCommitTracker

/-! ## The status of the replication -/

structure ReplicaStatus where
  target : RaftServer
  online : Bool
  logSize : Int
  deriving Repr, DecidableEq

def ReplicaStatus.upToDate (r : ReplicaStatus) (leaderLogSize : Int) : Bool :=
  r.online && 0 ≤ r.logSize && leaderLogSize - r.logSize < 30000

/-- What `getStatus` gives: the status of each target. -/
abbrev ReplicationStatus := List ReplicaStatus

namespace ReplicationStatus

def replicasUpToDate (replicas : ReplicationStatus) (leaderLogSize : Int) : Nat :=
  replicas.countP fun r => r.upToDate leaderLogSize

def quorumUpToDate (replicas : ReplicationStatus) (leaderLogSize : Int) : Bool :=
  replicas.length = 1 ||
    calculateQuorumSize replicas.length ≤ replicasUpToDate replicas leaderLogSize

def getReplicaStatus (replicas : ReplicationStatus) (replica : RaftServer) :
    Except Fault ReplicaStatus :=
  match replicas.find? fun r => r.target = replica with
  | some r => .ok r
  | none => .error (.thrown "Replica ")

def contains (replicas : ReplicationStatus) (replica : RaftServer) : Bool :=
  replicas.any fun r => r.target = replica

def removeReplica (replicas : ReplicationStatus) (replica : RaftServer) :
    Except Fault ReplicationStatus :=
  if contains replicas replica then .ok (replicas.eraseP fun r => r.target = replica)
  else .error (.thrown "Replica ")

def removeReplicas (replicas : ReplicationStatus) (gone : List RaftServer) :
    Except Fault ReplicationStatus :=
  gone.foldlM removeReplica replicas

def addReplica (replicas : ReplicationStatus) (replica : ReplicaStatus) :
    Except Fault ReplicationStatus :=
  if contains replicas replica.target then .error (.thrown "Targer ")
  else .ok (replicas ++ [replica])

end ReplicationStatus

/-! ## One target -/

/-- A request that is on its way, by its number among all that were sent. -/
structure PendingResponse where
  request : Nat
  pushedFrom : Int
  payloadSize : Int
  lastEntryTerm : Int
  deriving Repr, DecidableEq

/-- Where the thread of a tracker is. Its loops ask whether the snapshot is
still current, and what they send comes after that, in a step of its own. -/
inductive TrackerPhase
  /-- At the condition of the loop of `main`. -/
  | top
  /-- The condition held. -/
  | ready
  /-- Waiting for the response to a payload. -/
  | awaiting (item : PendingResponse)
  /-- At the condition of the loop of `streamUpdates`. -/
  | streamTop
  /-- The condition held. -/
  | streamReady
  | stopped
  deriving Repr, DecidableEq

structure RaftReplicaTracker where
  phase : TrackerPhase := .top
  nextIndex : Int
  payloadLimit : Int := 1
  online : Bool := false
  needResilvering : Bool := false
  inFlight : List PendingResponse := []
  streamingUpdates : Bool := false
  statusOnline : Bool := false
  statusLogSize : Int := -1
  deriving Repr, DecidableEq

namespace RaftReplicaTracker

/-- The entries from `index` on, as many as are asked for; none of them may have
a newer term than the snapshot. -/
def buildLoop (journal : RaftJournal) (snapshotTerm : Int) (index : Int) :
    Nat → Option (List RaftEntry)
  | 0 => some []
  | n + 1 =>
    match journal.fetch index with
    | none => none
    | some entry =>
      if snapshotTerm < entry.term then none
      else (buildLoop journal snapshotTerm (index + 1) n).map fun rest => entry :: rest

/-- The entries of a payload and the term of the last one. -/
def buildPayload (journal : RaftJournal) (snapshotTerm nextIndex payloadLimit : Int) :
    Option (List RaftEntry × Int) :=
  let payloadSize := min payloadLimit (journal.logSize - nextIndex)
  (buildLoop journal snapshotTerm nextIndex payloadSize.toNat).map fun entries =>
    (entries, ((entries.getLast?.map RaftEntry.term).getD (-1)))

/-- The request that `sendPayload` sends and the term of its last entry, unless
it gives up. -/
def sendPayload (s : RaftState) (snapshotTerm nextIndex payloadLimit : Int) :
    Option (RaftAppendEntriesRequest × Int) :=
  match s.journal.fetch (nextIndex - 1) with
  | none => none
  | some previous =>
    if snapshotTerm < previous.term then none
    else
      (buildPayload s.journal snapshotTerm nextIndex payloadLimit).map fun (entries, lastTerm) =>
        ({ term := snapshotTerm
           leader := s.myself
           prevIndex := nextIndex - 1
           prevTerm := previous.term
           commitIndex := s.journal.commitIndex
           entries }, lastTerm)

/-- Back from `streamUpdates`. -/
def endStreaming (t : RaftReplicaTracker) : RaftReplicaTracker :=
  { t with phase := .top, inFlight := [], online := true, payloadLimit := 1 }

/-- The condition of the loop the tracker is in. -/
def checkSnapshot (t : RaftReplicaTracker) (current : Bool) : RaftReplicaTracker :=
  match t.phase with
  | .top => { t with phase := if current then .ready else .stopped }
  | .streamTop =>
    if t.streamingUpdates && current then { t with phase := .streamReady } else t.endStreaming
  | _ => t

/-- What a tracker does next: itself, the state of its node, and what it sends. -/
structure Pushed where
  tracker : RaftReplicaTracker
  state : RaftState
  sent : Option RaftAppendEntriesRequest

/-- A round of `main` up to the response, once the condition of the loop held. -/
def pushConservative (t : RaftReplicaTracker) (s : RaftState) (snapshotTerm : Int)
    (request : Nat) : Pushed :=
  -- Target looks pretty stable, start continuous stream.
  if t.online && 8 ≤ t.payloadLimit then
    { tracker := { t with phase := .streamTop, streamingUpdates := true }, state := s, sent := none }
  else if t.nextIndex ≤ 0 then
    { tracker := { t with phase := .stopped }, state := s, sent := none }
  else
    let nextIndex := if t.nextIndex ≤ s.journal.logStart then s.journal.logSize else t.nextIndex
    match sendPayload s snapshotTerm nextIndex t.payloadLimit with
    | none =>
      { tracker := { t with nextIndex, phase := .stopped }
        state := (s.observed (snapshotTerm + 1) {}).2
        sent := none }
    | some (req, lastEntryTerm) =>
      { tracker := { t with
          nextIndex
          phase := .awaiting {
            request, pushedFrom := nextIndex, payloadSize := req.entries.length, lastEntryTerm } }
        state := s
        sent := some req }

/-- A round of `streamUpdates`, once the condition of the loop held. -/
def pushStreaming (t : RaftReplicaTracker) (s : RaftState) (snapshotTerm : Int)
    (request : Nat) : Pushed :=
  match sendPayload s snapshotTerm t.nextIndex 512 with
  | none =>
    { tracker := t.endStreaming, state := (s.observed (snapshotTerm + 1) {}).2, sent := none }
  | some (req, lastEntryTerm) =>
    { tracker := { t with
        phase := .streamTop
        inFlight := t.inFlight ++ [{
          request, pushedFrom := t.nextIndex, payloadSize := req.entries.length, lastEntryTerm }]
        -- Assume a positive response from the target, and keep pushing.
        nextIndex := t.nextIndex + req.entries.length }
      state := s
      sent := some req }

/-- `updateStatus`. -/
def updateStatus (t : RaftReplicaTracker) (online : Bool) (logSize : Int) : RaftReplicaTracker :=
  { t with statusOnline := online, statusLogSize := logSize }

/-- No response came: the target is offline. -/
def giveUp (t : RaftReplicaTracker) : RaftReplicaTracker :=
  { t with
    phase := .top
    online := false
    payloadLimit := if t.online then 1 else t.payloadLimit }.updateStatus false (-1)

/-- Where the next payload starts after a response with a negative outcome. -/
def stepBack (nextIndex logSize : Int) : Int :=
  -- Never try to touch entry #0.
  if 2 ≤ nextIndex ∧ nextIndex ≤ logSize then nextIndex - 1
  else if 0 < logSize then logSize
  else nextIndex

/-- What a tracker does with a response: itself, the state of its node, and the
match index that goes to the commit tracker. -/
structure Heard where
  tracker : RaftReplicaTracker
  state : RaftState
  matchIndex : Option Int

/-- The rest of a round of `main`, from the response on. -/
def retrieve (t : RaftReplicaTracker) (s : RaftState) (snapshotTerm : Int)
    (item : PendingResponse) (resp : RaftAppendEntriesResponse) : Heard :=
  let t := { t with phase := .top, online := true }
  let s := (s.observed resp.term {}).2
  if snapshotTerm < resp.term then { tracker := t, state := s, matchIndex := none }
  -- Does the target need resilvering?
  else if resp.logSize ≤ s.journal.logStart then
    { tracker := { t with
        nextIndex := s.journal.logSize
        needResilvering := true
        payloadLimit := if t.needResilvering then t.payloadLimit else 1 }.updateStatus
          true resp.logSize
      state := s
      matchIndex := none }
  else if !resp.outcome then
    { tracker := { t with
        nextIndex := stepBack t.nextIndex resp.logSize
        needResilvering := false }.updateStatus true resp.logSize
      state := s
      matchIndex := none }
  else
    { tracker := { t with
        nextIndex := resp.logSize
        payloadLimit := if t.payloadLimit < 1024 then t.payloadLimit * 2 else t.payloadLimit
        needResilvering := false }.updateStatus true resp.logSize
      state := s
      -- Only update the commit tracker once we're replicating entries from our
      -- snapshot term.
      matchIndex := if item.lastEntryTerm = snapshotTerm then some (resp.logSize - 1) else none }

/-- One response in `monitorAckReception`, for the oldest request in flight. -/
def acknowledge (t : RaftReplicaTracker) (s : RaftState) (snapshotTerm : Int)
    (item : PendingResponse) (resp : RaftAppendEntriesResponse) : Heard :=
  let t := { t with inFlight := t.inFlight.tail }
  let s := (s.observed resp.term {}).2
  if !resp.outcome ∨ resp.term ≠ snapshotTerm ∨
      resp.logSize ≠ item.pushedFrom + item.payloadSize then
    { tracker := { t with streamingUpdates := false }, state := s, matchIndex := none }
  else
    { tracker := t.updateStatus true resp.logSize
      state := s
      matchIndex := if item.lastEntryTerm = snapshotTerm then some (resp.logSize - 1) else none }

end RaftReplicaTracker

end quarkdb
