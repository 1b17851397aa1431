-- A cluster: nodes that hold elections, replicate their journals and change
-- their members, and the messages between them. A message that was sent stays
-- in the network, so it may arrive late, more than once, or never.
import QuarkDB.RaftReplicator

namespace quarkdb

/-! ## Elections -/

/-- What is known of the vote of one node. -/
inductive SingleVote
  | netError
  | parseError
  | vote (resp : RaftVoteResponse)
  deriving Repr, DecidableEq

inductive ElectionOutcome
  | kNotElected
  | kElected
  | kVetoed
  deriving Repr, DecidableEq

namespace RaftVoteRegistry

/-- The votes in favour, unless there is a veto. -/
def positives (preVote : Bool) : List SingleVote → Option Nat
  | [] => some 0
  | .netError :: rest => positives preVote rest
  | .parseError :: rest =>
    -- Does not support pre-vote... assume granted.
    (positives preVote rest).map fun n => if preVote then n + 1 else n
  | .vote resp :: rest =>
    match resp.vote with
    | .GRANTED => (positives preVote rest).map fun n => n + 1
    | .REFUSED => positives preVote rest
    | .VETO => none

def determineOutcome (preVote : Bool) (contents : List SingleVote) : ElectionOutcome :=
  match positives preVote contents with
  | none => .kVetoed
  | some n =>
    -- Implicit vote for myself.
    if calculateQuorumSize (contents.length + 1) ≤ n + 1 then .kElected else .kNotElected

end RaftVoteRegistry

/-- An election round under way: the request, the nodes that were asked, and the
votes that came in. -/
structure RaftElection where
  req : RaftVoteRequest
  contacted : List RaftServer
  votes : List (RaftServer × RaftVoteResponse)
  deriving Repr, DecidableEq

namespace RaftElection

/-- The votes when the round ends: who has not replied counts as a network error. -/
def contents (el : RaftElection) : List SingleVote :=
  el.contacted.map fun srv =>
    match el.votes.lookup srv with
    | some resp => .vote resp
    | none => .netError

/-- `observeTermsAndLeases`. -/
def observeTerms (s : RaftState) (contents : List SingleVote) : RaftState :=
  contents.foldl (fun s sv =>
    match sv with
    | .vote resp => (s.observed resp.term {}).2
    | _ => s) s

/-- The end of `perform` and of `runForLeader`. -/
def conclude (s : RaftState) (el : RaftElection) : RaftState :=
  let s := observeTerms s el.contents
  match RaftVoteRegistry.determineOutcome false el.contents with
  | .kElected =>
    match s.ascend el.req.term with
    | (.ok false, s) => (s.dropOut el.req.term).2
    | (_, s) => s
  | _ => (s.dropOut el.req.term).2

end RaftElection

/-- `runForLeader` up to the requests for votes: a pre-vote round changes nothing. -/
def runForLeader (s : RaftState) : RaftState × Option RaftVoteRequest :=
  match s.journal.fetch (s.journal.logSize - 1) with
  | none => (s, none)
  | some last =>
    let (observed, s') := s.observed (s.term + 1) {}
    if !observed then (s', none)
    else
      let (candidate, s'') := s'.becomeCandidate (s.term + 1)
      if !candidate then (s'', none)
      else (s'', some {
        term := s.term + 1
        candidate := s.myself
        lastIndex := s.journal.logSize - 1
        lastTerm := last.term })

/-! ## Nodes -/

structure RaftReplicator where
  snapshot : RaftStateSnapshot
  targets : List (RaftServer × RaftReplicaTracker)

namespace RaftReplicator

def setTracker (r : RaftReplicator) (target : RaftServer) (t : RaftReplicaTracker) :
    RaftReplicator :=
  { r with targets := r.targets.map fun p => if p.1 = target then (p.1, t) else p }

/-- A tracker that was just made; it does not run if the term has moved on. -/
def newTracker (r : RaftReplicator) (s : RaftState) : RaftReplicaTracker :=
  { phase := if r.snapshot.term < s.term then .stopped else .top
    nextIndex := s.journal.logSize }

def setTargets (r : RaftReplicator) (s : RaftState) (newTargets : List RaftServer) :
    RaftReplicator :=
  { r with targets :=
      (r.targets.filter fun p => p.1 ∈ newTargets) ++
        (newTargets.filter fun t => t ∉ r.targets.map Prod.fst).map fun t => (t, r.newTracker s) }

def getStatus (r : RaftReplicator) : ReplicationStatus :=
  r.targets.map fun (target, t) =>
    { target, online := t.statusOnline, logSize := t.statusLogSize }

end RaftReplicator

/-- A node of the cluster: its state with its journal, the commit tracker, the
replicator while it is active, and the election round it runs. -/
structure RaftNode where
  state : RaftState
  commitTracker : RaftCommitTracker
  replicator : Option RaftReplicator
  election : Option RaftElection

inductive MembershipChange
  | addObserver
  | removeMember
  | promoteObserver
  | demoteToObserver
  deriving Repr, DecidableEq

namespace RaftNode

/-- A node that just started. -/
def ofState (s : RaftState) : RaftNode :=
  { state := s, commitTracker := .ofJournal s.journal, replicator := none, election := none }

/-- The node that comes up again from its disk. -/
def restart (n : RaftNode) : Option RaftNode :=
  (RaftState.restartFrom n.state.journal.db n.state.myself).map ofState

/-- `isSnapshotCurrent`. -/
def isCurrent (n : RaftNode) (r : RaftReplicator) : Bool := n.state.getSnapshot = r.snapshot

def allServersExceptMyself (nodes : List RaftServer) (myself : RaftServer) :
    Except Fault (List RaftServer) :=
  if nodes.count myself = 1 then .ok (nodes.filter fun s => s ≠ myself)
  else .error (.thrown "unexpected value for 'skipped', got ")

def reconfigure (n : RaftNode) : Except Fault RaftNode := do
  let members := n.state.journal.members
  let fullNodes ← allServersExceptMyself members.nodes n.state.myself
  if n.state.myself ∈ members.observers then
    throw (.thrown "found myself in the list of observers, even though I'm leader: ")
  let targets := fullNodes ++ members.observers
  let commitTracker := n.commitTracker.updateTargets fullNodes
  match n.replicator with
  | some r => return { n with commitTracker, replicator := some (r.setTargets n.state targets) }
  | none =>
    -- A tracker cannot be made without a snapshot.
    if targets ≠ [] then throw .outOfBounds
    return { n with commitTracker }

/-- `RaftReplicator::activate`, with the snapshot of the leader. -/
def activate (n : RaftNode) : Except Fault RaftNode :=
  reconfigure { n with
    commitTracker := n.commitTracker.reset
    replicator := some { snapshot := n.state.getSnapshot, targets := [] } }

def deactivate (n : RaftNode) : RaftNode :=
  { n with commitTracker := n.commitTracker.reset, replicator := none }

def getStatus (n : RaftNode) : ReplicationStatus :=
  match n.replicator with
  | some r => r.getStatus
  | none => []

def checkIfNodeRemovalAcceptable (n : RaftNode) (srv : RaftServer) : Except Fault Bool := do
  let replicas ← n.getStatus.removeReplicas n.state.journal.members.observers
  let leaderStatus : ReplicaStatus :=
    { target := n.state.myself, online := true, logSize := n.state.journal.logSize }
  let replicas ← ReplicationStatus.addReplica replicas leaderStatus
  let replicas ← if ReplicationStatus.contains replicas srv then
    ReplicationStatus.removeReplica replicas srv else pure replicas
  return ReplicationStatus.quorumUpToDate replicas leaderStatus.logSize

/-- The checks of the dispatcher before it changes the members. -/
def checkChange (n : RaftNode) (change : MembershipChange) (srv : RaftServer) :
    Except Fault Bool := do
  if n.state.status ≠ .LEADER then return false
  if srv = n.state.myself then return false
  match change with
  | .addObserver => return true
  | .removeMember | .demoteToObserver => n.checkIfNodeRemovalAcceptable srv
  | .promoteObserver =>
    let replica ← n.getStatus.getReplicaStatus srv
    return replica.upToDate n.state.journal.logSize

/-- The call on the journal that changes the members. -/
def journalChange (term : Int) (srv : RaftServer) : MembershipChange → JournalM (Bool × Bytes)
  | .addObserver => RaftJournal.addObserver term srv
  | .removeMember => RaftJournal.removeMember term srv
  | .promoteObserver => RaftJournal.promoteObserver term srv
  | .demoteToObserver => RaftJournal.demoteToObserver term srv

def withJournal (n : RaftNode) (journal : RaftJournal) : RaftNode :=
  { n with state := { n.state with journal } }

/-- A request to change the members. An update that is appended takes effect at
once; if the replicator cannot follow it, the node crashes. -/
def changeMembers (n : RaftNode) (change : MembershipChange) (srv : RaftServer) :
    Option RaftNode :=
  match n.checkChange change srv with
  | .ok true =>
    let done := (journalChange n.state.term srv change).on n.state.journal
    match done.1 with
    | .ok (true, _) =>
      match (n.withJournal done.2).reconfigure with
      | .ok n' => some n'
      | .error _ => (n.withJournal done.2).restart
    | _ => some (n.withJournal done.2)
  | _ => some n

/-- What a tracker heard goes to the commit tracker. -/
def hear (n : RaftNode) (r : RaftReplicator) (target : RaftServer)
    (h : RaftReplicaTracker.Heard) : RaftNode :=
  let (commitTracker, journal) :=
    match h.matchIndex with
    | some index => n.commitTracker.updateMatchIndex h.state.journal target index
    | none => (n.commitTracker, h.state.journal)
  { n with
    state := { h.state with journal }
    commitTracker
    replicator := some (r.setTracker target h.tracker) }

end RaftNode

/-! ## The cluster -/

structure Cluster where
  node : RaftServer → RaftNode
  voteRequests : List (RaftServer × RaftVoteRequest)
  /-- The answers to requests for votes, with who gave them. -/
  voteReplies : List (RaftServer × RaftVoteRequest × RaftVoteResponse)
  appendRequests : List (RaftServer × RaftAppendEntriesRequest)
  /-- The responses to append requests, with the number of the request. -/
  appendReplies : List (Nat × RaftAppendEntriesResponse)
  heartbeats : List (RaftServer × RaftHeartbeatRequest)

/-- One step of one node. The messages are named by their place in the network. -/
inductive ClusterStep
  /-- A term comes in with the reply to a heartbeat, or the lease has expired. -/
  | observe (n : RaftServer) (term : Int)
  | runForLeader (n : RaftServer)
  | requestVote (request : Nat)
  | registerVote (n : RaftServer) (reply : Nat)
  | concludeElection (n : RaftServer)
  | activate (n : RaftServer)
  | deactivate (n : RaftServer)
  /-- A leader appends a write of a client, in one step with the check that it leads: `service`
  reads its snapshot before it locks, and no write is appended here under one that is old. -/
  | clientAppend (n : RaftServer) (request : RedisRequest)
  | changeMembers (n : RaftServer) (change : MembershipChange) (srv : RaftServer)
  | sendHeartbeat (n target : RaftServer)
  | heartbeat (request : Nat)
  /-- A tracker evaluates the condition of its loop. -/
  | checkSnapshot (n target : RaftServer)
  /-- A tracker reads the journal for a payload, in one step, and sends it. -/
  | sendPayload (n target : RaftServer)
  | appendEntries (request : Nat) (lastApplied : Int)
  /-- A tracker retrieves a response, in its conservative loop or from the stream. -/
  | retrieve (n target : RaftServer) (reply : Nat)
  /-- A tracker gets no response, or one it cannot read. -/
  | giveUp (n target : RaftServer)
  | autoCommit (n : RaftServer)
  | trim (n : RaftServer) (newLogStart : Int)
  | restart (n : RaftServer)
  deriving DecidableEq

namespace Cluster

def setNode (c : Cluster) (n : RaftServer) (node : RaftNode) : Cluster :=
  { c with node := fun m => if m = n then node else c.node m }

/-- The active replicator of a node and one of its trackers. -/
def trackerOf (c : Cluster) (n target : RaftServer) :
    Option (RaftReplicator × RaftReplicaTracker) :=
  match (c.node n).replicator with
  | some r => (r.targets.lookup target).map fun t => (r, t)
  | none => none

/-- A node starts an election round, and its requests go out. -/
def startElection (c : Cluster) (n : RaftServer) : Cluster :=
  let (state, req) := runForLeader (c.node n).state
  match req with
  | none => c.setNode n { c.node n with state }
  | some req =>
    let contacted := state.getNodes.filter fun s => s ≠ n
    { c.setNode n { c.node n with state, election := some { req, contacted, votes := [] } } with
      voteRequests := c.voteRequests ++ contacted.map fun s => (s, req) }

/-- A vote that comes in for the round it was asked in. -/
def registerVote (el : RaftElection) (srv : RaftServer) (req : RaftVoteRequest)
    (resp : RaftVoteResponse) : RaftElection :=
  if req = el.req ∧ (el.votes.lookup srv).isNone then { el with votes := el.votes ++ [(srv, resp)] }
  else el

/-- A tracker of a node sends what is next. -/
def push (c : Cluster) (n target : RaftServer) (r : RaftReplicator) (t : RaftReplicaTracker) :
    Option Cluster :=
  let pushed :=
    match t.phase with
    | .ready => some (t.pushConservative (c.node n).state r.snapshot.term c.appendRequests.length)
    | .streamReady => some (t.pushStreaming (c.node n).state r.snapshot.term c.appendRequests.length)
    | _ => none
  pushed.map fun p =>
    { c.setNode n { c.node n with
        state := p.state, replicator := some (r.setTracker target p.tracker) } with
      appendRequests := c.appendRequests ++ p.sent.toList.map fun req => (target, req) }

/-- A tracker of a node hears the response to a request. -/
def hear (c : Cluster) (n target : RaftServer) (r : RaftReplicator) (t : RaftReplicaTracker)
    (request : Nat) (resp : RaftAppendEntriesResponse) : Option Cluster :=
  match t.phase, t.inFlight with
  | .awaiting item, _ =>
    if item.request = request then
      some (c.setNode n ((c.node n).hear r target
        (t.retrieve (c.node n).state r.snapshot.term item resp)))
    else none
  | .streamTop, item :: _ | .streamReady, item :: _ =>
    if item.request = request ∧ t.streamingUpdates then
      some (c.setNode n ((c.node n).hear r target
        (t.acknowledge (c.node n).state r.snapshot.term item resp)))
    else none
  | _, _ => none

/-- A tracker gets no response: in the stream, the stream ends. -/
def giveUp (t : RaftReplicaTracker) : Option RaftReplicaTracker :=
  match t.phase with
  | .awaiting _ => some t.giveUp
  | .streamTop | .streamReady =>
    some { t with inFlight := t.inFlight.tail, streamingUpdates := false }
  | _ => none

/-- The cluster after a step, if the step can be taken. A step is a whole call, also where the code
takes it in parts: `.clientAppend`, `.sendPayload`, `.runForLeader` up to its requests, and the
handlers, although `raftCommand` does not keep elections out of them. -/
def step (c : Cluster) : ClusterStep → Option Cluster
  | .observe n term =>
    some (c.setNode n { c.node n with state := ((c.node n).state.observed term {}).2 })
  | .runForLeader n =>
    if (c.node n).state.status = .FOLLOWER ∧ (c.node n).replicator.isNone ∧
        (c.node n).election.isNone then some (c.startElection n)
    else none
  | .requestVote request =>
    c.voteRequests[request]?.map fun (n, req) =>
      let (resp, state) := RaftDispatcher.requestVote (c.node n).state req false
      { c.setNode n { c.node n with state } with
        voteReplies := c.voteReplies ++ (match resp with
          | .ok resp => [(n, req, resp)]
          | .error _ => []) }
  | .registerVote n reply =>
    match c.voteReplies[reply]?, (c.node n).election with
    | some (srv, req, resp), some el =>
      some (c.setNode n { c.node n with election := some (registerVote el srv req resp) })
    | _, _ => none
  | .concludeElection n =>
    (c.node n).election.map fun el =>
      c.setNode n { c.node n with state := el.conclude (c.node n).state, election := none }
  | .activate n =>
    if (c.node n).state.status = .LEADER ∧ (c.node n).replicator.isNone then
      match (c.node n).activate with
      | .ok node => some (c.setNode n node)
      | .error _ => none
    else none
  | .deactivate n =>
    match (c.node n).replicator with
    | some r => if (c.node n).isCurrent r then none else some (c.setNode n (c.node n).deactivate)
    | none => none
  | .clientAppend n request =>
    if (c.node n).state.status = .LEADER ∧ ¬ RaftJournal.isMembersUpdate request then
      let s := (c.node n).state
      some (c.setNode n ((c.node n).withJournal
        ((RaftJournal.append s.journal.logSize { term := s.term, request }).on s.journal).2))
    else none
  | .changeMembers n change srv => ((c.node n).changeMembers change srv).map (c.setNode n)
  | .sendHeartbeat n target =>
    (c.trackerOf n target).map fun (r, _) =>
      { c with heartbeats := c.heartbeats ++ [(target, { term := r.snapshot.term, leader := n })] }
  | .heartbeat request =>
    c.heartbeats[request]?.map fun (n, req) =>
      c.setNode n { c.node n with
        state := ((RaftDispatcher.heartbeat req).on (c.node n).state).2 }
  | .checkSnapshot n target =>
    (c.trackerOf n target).map fun (r, t) =>
      c.setNode n { c.node n with
        replicator := some (r.setTracker target (t.checkSnapshot ((c.node n).isCurrent r))) }
  | .sendPayload n target =>
    match c.trackerOf n target with
    | some (r, t) => c.push n target r t
    | none => none
  | .appendEntries request lastApplied =>
    c.appendRequests[request]?.map fun (n, req) =>
      let (resp, state) := (RaftDispatcher.appendEntries lastApplied req).on (c.node n).state
      { c.setNode n { c.node n with state } with
        appendReplies := c.appendReplies ++ (match resp with
          | .ok resp => [(request, resp)]
          | .error _ => []) }
  | .retrieve n target reply =>
    match c.trackerOf n target, c.appendReplies[reply]? with
    | some (r, t), some (request, resp) => c.hear n target r t request resp
    | _, _ => none
  | .giveUp n target =>
    match c.trackerOf n target with
    | some (r, t) =>
      (giveUp t).map fun t => c.setNode n { c.node n with replicator := some (r.setTracker target t) }
    | none => none
  | .autoCommit n =>
    if (c.node n).commitTracker.autoCommitter then
      some (c.setNode n ((c.node n).withJournal
        (RaftCommitTracker.runAutoCommit (c.node n).state.journal)))
    else none
  | .trim n newLogStart =>
    some (c.setNode n ((c.node n).withJournal
      ((RaftJournal.trimUntil newLogStart).on (c.node n).state.journal).2))
  | .restart n => ((c.node n).restart).map (c.setNode n)

/-- The cluster after a sequence of steps. -/
def runAll (c : Cluster) : List ClusterStep → Option Cluster
  | [] => some c
  | x :: xs => (c.step x).bind fun c' => c'.runAll xs

/-- A new cluster: every server has the journal that was created for it. -/
def created (journal : RaftJournal) : Cluster :=
  { node := fun n => .ofState (.ofJournal journal n)
    voteRequests := [], voteReplies := [], appendRequests := [], appendReplies := []
    heartbeats := [] }

end Cluster

end quarkdb
