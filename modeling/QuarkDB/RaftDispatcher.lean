-- What a node does with the requests of other nodes: heartbeats, entries to
-- append, and requests for its vote. Each runs under the lock of the
-- dispatcher, as one step.
import QuarkDB.RaftState

namespace quarkdb

/-! ## Messages -/

structure RaftHeartbeatRequest where
  term : Int
  leader : RaftServer
  deriving Repr, DecidableEq

structure RaftHeartbeatResponse where
  term : Int
  nodeRecognizedAsLeader : Bool
  err : Bytes
  deriving Repr, DecidableEq

structure RaftAppendEntriesRequest where
  term : Int
  leader : RaftServer
  prevIndex : Int
  prevTerm : Int
  commitIndex : Int
  entries : List RaftEntry
  deriving Repr, DecidableEq

structure RaftAppendEntriesResponse where
  term : Int
  logSize : Int
  outcome : Bool
  err : Bytes
  deriving Repr, DecidableEq

structure RaftVoteRequest where
  term : Int
  candidate : RaftServer
  lastIndex : Int
  lastTerm : Int
  deriving Repr, DecidableEq

inductive RaftVote
  | VETO
  | REFUSED
  | GRANTED
  deriving Repr, DecidableEq

structure RaftVoteResponse where
  term : Int
  vote : RaftVote
  deriving Repr, DecidableEq

def calculateQuorumSize (members : Nat) : Nat := members / 2 + 1

namespace RaftDispatcher

/-- A call on the journal of the node. -/
def onJournal {α : Type} (call : JournalM α) : Call RaftState α :=
  Call.within RaftState.journal (fun s journal => { s with journal }) call

/-! ## Heartbeats -/

/-- What a heartbeat answers from the snapshot it took. -/
def recognize (snapshot : RaftStateSnapshot) (req : RaftHeartbeatRequest) :
    Except Fault RaftHeartbeatResponse :=
  if snapshot.status = .SHUTDOWN then
    .ok { term := snapshot.term, nodeRecognizedAsLeader := false, err := ascii "in shutdown" }
  else if req.term < snapshot.term then
    .ok { term := snapshot.term, nodeRecognizedAsLeader := false,
          err := ascii "My raft term is newer" }
  else if req.term ≠ snapshot.term then .error (.assertion "req.term == snapshot->term")
  else if req.leader ≠ snapshot.leader then .error (.thrown "Received append entries from ")
  else .ok { term := snapshot.term, nodeRecognizedAsLeader := true, err := [] }

def heartbeat (req : RaftHeartbeatRequest) : Call RaftState RaftHeartbeatResponse := do
  let s ← get
  if req.leader = s.myself then throw (.thrown "received heartbeat from myself")
  set (s.observed req.term req.leader).2
  recognize (s.observed req.term req.leader).2.getSnapshot req

/-! ## Entries to append -/

/-- The loop that appends what is new; it stops at the first entry the journal
does not take. -/
def appendLoop (index : Int) : List RaftEntry → JournalM Bool
  | [] => pure true
  | entry :: rest => do
    if ← RaftJournal.append index entry then appendLoop (index + 1) rest else return false

/-- Cut the journal at the first inconsistency, and append the entries from
there on. -/
def overwrite (firstInconsistency : Int) (entries : List RaftEntry) : JournalM Bool := do
  let _ ← RaftJournal.removeEntries firstInconsistency
  appendLoop firstInconsistency entries

/-- What `appendEntries` does to the journal once the sender is recognized as
leader: the outcome, and the error if it is negative. The last applied index of
the state machine is given. -/
def receiveEntries (lastApplied : Int) (req : RaftAppendEntriesRequest) :
    JournalM (Bool × Bytes) := do
  let journal ← get
  if !journal.matchEntries req.prevIndex req.prevTerm then
    return (false, ascii "Log entry mismatch")
  let firstInconsistency ← (journal.compareEntries (req.prevIndex + 1) req.entries :
    Except Fault Int)
  let appendFrom := firstInconsistency - (req.prevIndex + 1)
  -- Check if all entries are duplicates. If so, there is nothing to do.
  if appendFrom < req.entries.length then
    if firstInconsistency ≤ journal.commitIndex then
      throw (.thrown "detected inconsistent entries for index ")
    if firstInconsistency ≠ journal.logSize ∧ firstInconsistency ≤ lastApplied then
      throw (.thrown "raft invariant violation: Attempted to remove already applied entries")
    let appended ← overwrite firstInconsistency (req.entries.drop appendFrom.toNat)
    if !appended then return (false, ascii "Unknown error")
  let journal ← get
  let _ ← RaftJournal.setCommitIndex (min (journal.logSize - 1) req.commitIndex)
  return (true, [])

def appendEntries (lastApplied : Int) (req : RaftAppendEntriesRequest) :
    Call RaftState RaftAppendEntriesResponse := do
  let heartbeatResponse ← heartbeat { term := req.term, leader := req.leader }
  if !heartbeatResponse.nodeRecognizedAsLeader then
    let s ← get
    return {
      term := heartbeatResponse.term
      logSize := s.journal.logSize
      outcome := false
      err := heartbeatResponse.err }
  let (outcome, err) ← onJournal (receiveEntries lastApplied req)
  let s ← get
  return { term := heartbeatResponse.term, logSize := s.journal.logSize, outcome, err }

/-! ## Requests for a vote -/

/-- Would the candidate, if elected, overwrite entries that are committed here?
The answer, if it decides the request. -/
def overwritesCommitted (journal : RaftJournal) (req : RaftVoteRequest) : Option RaftVote :=
  if req.lastIndex ≤ journal.commitIndex then
    if req.lastIndex < journal.logStart then some .VETO
    else
      match journal.fetch req.lastIndex with
      | none => some .REFUSED
      | some entry =>
        if req.lastTerm ≠ entry.term then some .VETO
        -- The leadership marker of the candidate would replace the next entry.
        else if req.lastIndex + 1 ≤ journal.commitIndex then some .VETO
        else none
  else none

/-- Is the journal of the candidate behind this one, or cannot that be told? -/
def moreUpToDate (journal : RaftJournal) (req : RaftVoteRequest) : Bool :=
  let myLastIndex := journal.logSize - 1
  match journal.fetch myLastIndex with
  | none => true
  | some entry =>
    req.lastTerm < entry.term || (req.lastTerm = entry.term && req.lastIndex < myLastIndex)

/-- The checks of `requestVote` after the term of the request was observed: the
answer, if one of them decides the request. -/
def refuses (s : RaftState) (req : RaftVoteRequest) (preVote : Bool) :
    Except Fault (Option RaftVote) :=
  match overwritesCommitted s.journal req with
  | some vote => .ok (some vote)
  | none =>
    if req.term < s.term then .ok (some .REFUSED)
    else if !preVote ∧ s.term ≠ req.term then .error (.assertion "snapshot->term == req.term")
    else if s.term = req.term ∧ !s.votedFor.empty ∧ s.votedFor ≠ req.candidate then
      .ok (some .REFUSED)
    else if moreUpToDate s.journal req then .ok (some .REFUSED)
    else .ok none

/-- The rest of `requestVote`, from the state that observed the term. -/
def answerVote (s : RaftState) (req : RaftVoteRequest) (preVote : Bool) :
    Except Fault RaftVoteResponse × RaftState :=
  match refuses s req preVote with
  | .error e => (.error e, s)
  | .ok (some vote) => (.ok { term := s.term, vote }, s)
  | .ok none =>
    if preVote then (.ok { term := s.term, vote := .GRANTED }, s)
    else if (s.grantVote req.term req.candidate).1 then
      (.ok { term := s.term, vote := .GRANTED }, (s.grantVote req.term req.candidate).2)
    else (.ok { term := s.term, vote := .REFUSED }, (s.grantVote req.term req.candidate).2)

def requestVote (s : RaftState) (req : RaftVoteRequest) (preVote : Bool) :
    Except Fault RaftVoteResponse × RaftState :=
  if req.candidate = s.myself then (.error (.thrown "received vote request from myself: "), s)
  -- Defend against disruptive servers.
  else if req.candidate ∉ s.getNodes ∧ !s.leader.empty then
    (.ok { term := s.term, vote := .VETO }, s)
  else answerVote (if preVote then s else (s.observed req.term {}).2) req preVote

/-! ## What the handlers leave -/

open RaftJournal (Good SameVote)

theorem SameVote_trans {j j' j'' : RaftJournal} (h : SameVote j j') (h' : SameVote j' j'') :
    SameVote j j'' := ⟨h'.1.trans h.1, h'.2.trans h.2⟩

theorem good_appendLoop {j : RaftJournal} (h : Good j) (index : Int) (entries : List RaftEntry) :
    Good ((appendLoop index entries).on j).2 ∧ SameVote j ((appendLoop index entries).on j).2 := by
  induction entries generalizing j index with
  | nil => exact ⟨h, rfl, rfl⟩
  | cons entry rest ih =>
    obtain ⟨h1, -, h2⟩ := RaftJournal.good_appendNoLock h index entry .reopen
    unfold appendLoop RaftJournal.append
    simp only [Call.on_bind]
    generalize (RaftJournal.appendNoLock index entry).on j = r at h1 h2 ⊢
    obtain ⟨r, j'⟩ := r
    match r with
    | .error e => exact ⟨h1, h2⟩
    | .ok false => exact ⟨h1, h2⟩
    | .ok true =>
      obtain ⟨h3, h4⟩ := ih h1 (index + 1)
      exact ⟨h3, SameVote_trans h2 h4⟩

theorem good_overwrite {j : RaftJournal} (h : Good j) (first : Int) (entries : List RaftEntry) :
    Good ((overwrite first entries).on j).2 ∧ SameVote j ((overwrite first entries).on j).2 := by
  obtain ⟨h1, -, h2⟩ := RaftJournal.good_removeEntries h first .reopen
  unfold overwrite
  simp only [Call.on_bind]
  generalize (RaftJournal.removeEntries first).on j = r at h1 h2 ⊢
  obtain ⟨r, j'⟩ := r
  cases r with
  | error e => exact ⟨h1, h2⟩
  | ok b =>
    obtain ⟨h3, h4⟩ := good_appendLoop h1 first entries
    exact ⟨h3, SameVote_trans h2 h4⟩

theorem heartbeat_on (req : RaftHeartbeatRequest) (s : RaftState) :
    (heartbeat req).on s =
      if req.leader = s.myself then (.error (.thrown "received heartbeat from myself"), s)
      else (recognize (s.observed req.term req.leader).2.getSnapshot req,
        (s.observed req.term req.leader).2) := by
  unfold heartbeat
  by_cases h : req.leader = s.myself
  · simp [h]
  · simp [h]

/-- A sender that is recognized is the leader of the term of the node. -/
theorem recognize_leader {snapshot : RaftStateSnapshot} {req : RaftHeartbeatRequest}
    {resp : RaftHeartbeatResponse} (h : recognize snapshot req = .ok resp) :
    resp.term = snapshot.term ∧ (resp.nodeRecognizedAsLeader = true →
      snapshot.status ≠ .SHUTDOWN ∧ snapshot.term = req.term ∧ snapshot.leader = req.leader) := by
  unfold recognize at h
  split at h
  · cases h
    exact ⟨rfl, fun hn => by cases hn⟩
  split at h
  · cases h
    exact ⟨rfl, fun hn => by cases hn⟩
  split at h
  · cases h
  split at h
  · cases h
  · rename_i h1 _ h2 h3
    cases h
    exact ⟨rfl, fun _ => ⟨h1, (not_not.mp h2).symm, (not_not.mp h3).symm⟩⟩

/-- The end of `receiveEntries`: the commit index follows that of the leader. -/
def finishReceive (commitIndex : Int) : JournalM (Bool × Bytes) := do
  let journal ← get
  let _ ← RaftJournal.setCommitIndex (min (journal.logSize - 1) commitIndex)
  return (true, [])

/-- Entries that are received change nothing, or are all there already, or
overwrite the journal from the first inconsistency on. -/
theorem receiveEntries_cases (lastApplied : Int) (req : RaftAppendEntriesRequest)
    (j : RaftJournal) :
    (∃ r, (receiveEntries lastApplied req).on j = (r, j) ∧ ∀ err, r ≠ .ok (true, err)) ∨
    (j.matchEntries req.prevIndex req.prevTerm = true ∧
      ∃ first, j.compareEntries (req.prevIndex + 1) req.entries = .ok first ∧
      ((req.entries.length ≤ first - (req.prevIndex + 1) ∧
          (receiveEntries lastApplied req).on j = (finishReceive req.commitIndex).on j) ∨
        (first - (req.prevIndex + 1) < req.entries.length ∧ j.commitIndex < first ∧
          ∀ ov, ov = (overwrite first
            (req.entries.drop (first - (req.prevIndex + 1)).toNat)).on j →
          (∃ r, (receiveEntries lastApplied req).on j = (r, ov.2) ∧ ∀ err, r ≠ .ok (true, err)) ∨
          (ov.1 = .ok true ∧
            (receiveEntries lastApplied req).on j = (finishReceive req.commitIndex).on ov.2)))) := by
  unfold receiveEntries
  cases hm : j.matchEntries req.prevIndex req.prevTerm with
  | false => exact .inl ⟨.ok (false, ascii "Log entry mismatch"), by simp [hm], by simp⟩
  | true =>
    cases hc : j.compareEntries (req.prevIndex + 1) req.entries with
    | error e => exact .inl ⟨.error e, by simp [hm, hc], by simp⟩
    | ok first =>
      by_cases h1 : first - (req.prevIndex + 1) < req.entries.length
      · by_cases h2 : first ≤ j.commitIndex
        · exact .inl ⟨.error (.thrown "detected inconsistent entries for index "),
            by simp [hm, hc, h1, h2], by simp⟩
        by_cases h3 : first ≠ j.logSize ∧ first ≤ lastApplied
        · exact .inl ⟨.error (.thrown
            "raft invariant violation: Attempted to remove already applied entries"),
            by simp [hm, hc, h1, h2, h3], by simp⟩
        refine .inr ⟨rfl, first, rfl, .inr ⟨h1, by omega, fun ov hov => ?_⟩⟩
        obtain ⟨r, j'⟩ := ov
        match r with
        | .error e =>
          exact .inl ⟨.error e, by simp [hm, hc, h1, h2, h3, ← hov], by simp⟩
        | .ok false =>
          exact .inl ⟨.ok (false, ascii "Unknown error"),
            by simp [hm, hc, h1, h2, h3, ← hov], by simp⟩
        | .ok true =>
          exact .inr ⟨rfl, by simp [hm, hc, h1, h2, h3, ← hov, finishReceive]⟩
      · refine .inr ⟨rfl, first, rfl, .inl ⟨by omega, ?_⟩⟩
        simp [hm, hc, h1, finishReceive]

theorem good_finishReceive {j : RaftJournal} (h : Good j) (commitIndex : Int) :
    Good ((finishReceive commitIndex).on j).2 ∧
      SameVote j ((finishReceive commitIndex).on j).2 := by
  obtain ⟨h1, -, h2⟩ :=
    RaftJournal.good_setCommitIndex h (min (j.logSize - 1) commitIndex) .reopen
  unfold finishReceive
  simp only [Call.on_bind, Call.on_get]
  generalize (RaftJournal.setCommitIndex (min (j.logSize - 1) commitIndex)).on j = r at h1 h2 ⊢
  obtain ⟨r, j'⟩ := r
  cases r <;> exact ⟨h1, h2⟩

theorem good_receiveEntries {j : RaftJournal} (h : Good j) (lastApplied : Int)
    (req : RaftAppendEntriesRequest) :
    Good ((receiveEntries lastApplied req).on j).2 ∧
      SameVote j ((receiveEntries lastApplied req).on j).2 := by
  rcases receiveEntries_cases lastApplied req j with
    ⟨r, hr, -⟩ | ⟨-, first, -, ⟨-, hr⟩ | ⟨-, -, hov⟩⟩
  · rw [hr]
    exact ⟨h, rfl, rfl⟩
  · rw [hr]
    exact good_finishReceive h req.commitIndex
  · obtain ⟨h1, h2⟩ := good_overwrite h first
      (req.entries.drop (first - (req.prevIndex + 1)).toNat)
    rcases hov _ rfl with ⟨r, hr, -⟩ | ⟨-, hr⟩
    · rw [hr]
      exact ⟨h1, h2⟩
    · rw [hr]
      obtain ⟨h3, h4⟩ := good_finishReceive h1 req.commitIndex
      exact ⟨h3, SameVote_trans h2 h4⟩

open RaftState (Sound Kept Later LeaderKept)

/-- A change of the journal that leaves the term and the vote. -/
theorem kept_journal {s : RaftState} (h : Sound s) {j : RaftJournal} (hg : Good j)
    (hv : SameVote s.journal j) : Kept s { s with journal := j } :=
  ⟨⟨hg, hv.1.trans h.term_eq, hv.2.trans h.vote_eq, h.voted_self, h.leader_self⟩,
    ⟨rfl, le_refl _, fun _ _ => rfl, fun _ _ => id⟩, fun _ _ => rfl⟩

theorem Kept_trans {s s' s'' : RaftState} (h : Kept s s') (h' : Kept s' s'') : Kept s s'' :=
  ⟨h'.sound, h.later.trans h'.later,
    LeaderKept.trans h.later.term h'.later.term h.leader h'.leader⟩

theorem kept_heartbeat {s : RaftState} (h : Sound s) (hme : s.myself.empty = false)
    (req : RaftHeartbeatRequest) : Kept s ((heartbeat req).on s).2 := by
  rw [heartbeat_on]
  split
  · exact RaftState.kept_self h
  · exact RaftState.kept_observed h hme req.term req.leader

/-- Entries that are received throw at once, leave the state that observed the
term of the request, or change its journal as `receiveEntries` says. -/
theorem appendEntries_cases (lastApplied : Int) (req : RaftAppendEntriesRequest) (s : RaftState) :
    (∃ e, (appendEntries lastApplied req).on s = (.error e, s)) ∨
    (∃ r, (appendEntries lastApplied req).on s = (r, (s.observed req.term req.leader).2) ∧
      ∀ resp, r = .ok resp → resp.outcome = false) ∨
    ((s.observed req.term req.leader).2.term = req.term ∧
      (s.observed req.term req.leader).2.leader = req.leader ∧ req.leader ≠ s.myself ∧
      ∃ r, (appendEntries lastApplied req).on s =
        (r, { (s.observed req.term req.leader).2 with
          journal := ((receiveEntries lastApplied req).on
            (s.observed req.term req.leader).2.journal).2 }) ∧
        ∀ resp, r = .ok resp → resp.term = req.term ∧
          resp.logSize = ((receiveEntries lastApplied req).on
            (s.observed req.term req.leader).2.journal).2.logSize ∧
          (receiveEntries lastApplied req).on (s.observed req.term req.leader).2.journal =
            (.ok (resp.outcome, resp.err), ((receiveEntries lastApplied req).on
              (s.observed req.term req.leader).2.journal).2)) := by
  unfold appendEntries
  simp only [Call.on_bind, heartbeat_on]
  by_cases h1 : req.leader = s.myself
  · exact .inl ⟨_, by rw [if_pos h1]⟩
  rw [if_neg h1]
  generalize (s.observed req.term req.leader).2 = s'
  cases hr : recognize s'.getSnapshot { term := req.term, leader := req.leader } with
  | error e => exact .inr (.inl ⟨.error e, rfl, by simp⟩)
  | ok resp =>
    obtain ⟨ht, hl⟩ := recognize_leader hr
    cases hn : resp.nodeRecognizedAsLeader with
    | false =>
      refine .inr (.inl ⟨.ok ⟨resp.term, s'.journal.logSize, false, resp.err⟩,
        by simp [hn, Except.map], ?_⟩)
      rintro resp' ⟨⟩
      rfl
    | true =>
      obtain ⟨-, h3, h4⟩ := hl hn
      have hrt : resp.term = req.term := ht.trans h3
      refine .inr (.inr ⟨h3, h4, h1, ?_⟩)
      simp only [hn, Bool.not_true, Bool.false_eq_true, if_false, Call.on_bind, onJournal,
        Call.on_within]
      generalize (receiveEntries lastApplied req).on s'.journal = r
      obtain ⟨r, j⟩ := r
      cases r with
      | error e => exact ⟨.error e, rfl, by simp⟩
      | ok r =>
        refine ⟨_, rfl, ?_⟩
        rintro resp' ⟨⟩
        exact ⟨hrt, rfl, rfl⟩

theorem kept_appendEntries {s : RaftState} (h : Sound s) (hme : s.myself.empty = false)
    (lastApplied : Int) (req : RaftAppendEntriesRequest) :
    Kept s ((appendEntries lastApplied req).on s).2 := by
  have ho := RaftState.kept_observed h hme req.term req.leader
  rcases appendEntries_cases lastApplied req s with ⟨e, he⟩ | ⟨r, hr, -⟩ | ⟨-, -, -, r, hr, -⟩
  · rw [he]
    exact RaftState.kept_self h
  · rw [hr]
    exact ho
  · rw [hr]
    obtain ⟨hg, hv⟩ := good_receiveEntries ho.sound.journal_good lastApplied req
    exact Kept_trans ho (kept_journal ho.sound hg hv)

/-- A refusal is not a vote. -/
theorem refuses_ne_granted {s : RaftState} {req : RaftVoteRequest} {preVote : Bool} {vote : RaftVote}
    (h : refuses s req preVote = .ok (some vote)) : vote ≠ .GRANTED := by
  rintro rfl
  unfold refuses at h
  split at h
  · rename_i v hv
    cases h
    unfold overwritesCommitted at hv
    split at hv
    · split at hv
      · cases hv
      · split at hv
        · cases hv
        · split at hv
          · cases hv
          · split at hv <;> cases hv
    · cases hv
  · split at h
    · cases h
    split at h
    · cases h
    split at h
    · cases h
    split at h <;> cases h

/-- A request for a vote changes nothing, makes its term observed, or makes its
term observed and goes on to `grantVote`. Only the last gives the vote away. -/
theorem requestVote_cases (s : RaftState) (req : RaftVoteRequest) :
    ((requestVote s req true).2 = s) ∧
    ((∃ r, requestVote s req false = (r, s) ∧ ∀ resp, r = .ok resp → resp.vote ≠ .GRANTED) ∨
      (∃ r, requestVote s req false = (r, (s.observed req.term {}).2) ∧
        ∀ resp, r = .ok resp → resp.vote ≠ .GRANTED) ∨
      (refuses (s.observed req.term {}).2 req false = .ok none ∧
        ∃ vote, requestVote s req false =
            (.ok ⟨(s.observed req.term {}).2.term, vote⟩,
              ((s.observed req.term {}).2.grantVote req.term req.candidate).2) ∧
          (vote = .GRANTED →
            ((s.observed req.term {}).2.grantVote req.term req.candidate).1 = true))) := by
  unfold requestVote
  by_cases h1 : req.candidate = s.myself
  · simp only [h1, if_true]
    exact ⟨trivial, .inl ⟨_, rfl, by simp⟩⟩
  by_cases h2 : req.candidate ∉ s.getNodes ∧ !s.leader.empty
  · simp only [h1, if_false, if_pos h2]
    refine ⟨trivial, .inl ⟨_, rfl, ?_⟩⟩
    rintro resp ⟨⟩
    simp
  simp only [h1, if_false, if_neg h2, if_true, Bool.false_eq_true]
  constructor
  · unfold answerVote
    split <;> rfl
  generalize (s.observed req.term {}).2 = s'
  refine .inr ?_
  unfold answerVote
  cases hr : refuses s' req false with
  | error e => exact .inl ⟨_, rfl, by simp⟩
  | ok o =>
    cases o with
    | some vote =>
      refine .inl ⟨_, rfl, ?_⟩
      rintro resp ⟨⟩
      exact refuses_ne_granted hr
    | none =>
      refine .inr ⟨rfl, ?_⟩
      cases hg : (s'.grantVote req.term req.candidate).1 with
      | true => exact ⟨.GRANTED, by simp, fun _ => rfl⟩
      | false => exact ⟨.REFUSED, by simp, fun h => by cases h⟩

theorem kept_requestVote {s : RaftState} (h : Sound s) (hme : s.myself.empty = false)
    (req : RaftVoteRequest) (preVote : Bool) : Kept s (requestVote s req preVote).2 := by
  obtain ⟨hp, hv⟩ := requestVote_cases s req
  have ho := RaftState.kept_observed h hme req.term {}
  cases preVote with
  | true =>
    rw [hp]
    exact RaftState.kept_self h
  | false =>
    rcases hv with ⟨r, hr, -⟩ | ⟨r, hr, -⟩ | ⟨-, vote, hr, -⟩
    · rw [hr]
      exact RaftState.kept_self h
    · rw [hr]
      exact ho
    · rw [hr]
      exact Kept_trans ho (RaftState.kept_grantVote ho.sound req.term req.candidate)

end RaftDispatcher

end quarkdb
