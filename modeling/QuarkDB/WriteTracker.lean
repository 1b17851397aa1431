-- From the journal to the state machine. A write of a client waits in the queue
-- of its connection until its index is committed, and is then applied from the
-- queue; an entry that no queue waits for is applied from the journal. The
-- threads meet at two locks: `raftCommand`, which a client's append and
-- `appendEntries` hold, and the lock of the write tracker.
import QuarkDB.RaftDispatcher
import QuarkDB.Transaction

namespace quarkdb

/-! ## Queues of connections -/

/-- A read, a write, or a response that is ready. The index is that of the entry in
the journal, and only relevant for writes. -/
structure PendingRequest where
  tx : Transaction := .empty
  rawResp : Bytes := []
  index : Int := -1

structure PendingQueue where
  /-- `conn` is not null. -/
  attached : Bool := true
  lastIndex : Int := -1
  pending : List PendingRequest := []

/-- The state machine: the index it has applied up to, and the requests it has
committed, each with its index. -/
structure Applied where
  lastApplied : Int
  history : List (Int × RedisRequest)

/-- `RedisDispatcher::dispatch` with an index. Reads have no index, and change nothing. -/
def Applied.dispatch (a : Applied) (request : RedisRequest) (index : Int) : Except Fault Applied :=
  if index ≤ 0 then .ok a
  else if index ≠ a.lastApplied + 1 then
    .error (.thrown "attempted to perform illegal lastApplied update: ")
  else .ok { lastApplied := index, history := a.history ++ [(index, request)] }

namespace PendingQueue

def flushPending (q : PendingQueue) : PendingQueue := { q with pending := [], lastIndex := -1 }

def appendResponse (q : PendingQueue) (raw : Bytes) : Except Fault PendingQueue :=
  if q.attached = false then
    .error (.thrown "attempted to append a raw response to a pendingQueue while being detached")
  else if q.pending = [] then .ok q
  else .ok { q with pending := q.pending ++ [{ rawResp := raw }] }

def addPendingTransaction (q : PendingQueue) (tx : Transaction) (index : Int) :
    Except Fault PendingQueue :=
  if q.attached = false then
    .error (.thrown "attempted to append a pending request to a pendingQueue while being detached")
  else if q.pending = [] ∧ index < 0 then do
    -- A read, and nothing blocks it: it goes to the state machine directly.
    qdbAssert (!tx.containsWrites) "!tx.containsWrites()"
    return q
  else if 0 < index ∧ index ≤ q.lastIndex then
    .error (.thrown "attempted to insert queued request with index ")
  else
    .ok { q with
      lastIndex := if 0 < index then index else q.lastIndex
      pending := q.pending ++ [{ tx, index }] }

/-- The loop of `dispatchPending`: what is left in the queue, and the index that blocks it now. -/
def dispatchLoop (commitIndex : Int) (a : Applied) (found : Bool) :
    List PendingRequest → Except Fault (Applied × List PendingRequest × Int)
  | [] =>
    if found then .ok (a, [], -1) else .error (.thrown "entry with index not found")
  | req :: rest =>
    if commitIndex < req.index then .ok (a, req :: rest, req.index)
    else if req.rawResp ≠ [] then dispatchLoop commitIndex a found rest
    else if 0 < req.index then
      if found then .error (.thrown "queue corruption: found entry with positive index twice")
      else if req.index ≠ commitIndex then
        .error (.thrown "queue corruption: expected entry with another index")
      else
        match a.dispatch req.tx.toRedisRequest req.index with
        | .error e => .error e
        | .ok a => dispatchLoop commitIndex a true rest
    else dispatchLoop commitIndex a found rest

end PendingQueue

/-! ## The node -/

/-- `RaftBlockedWrites`: which queue waits for an index. -/
abbrev RaftBlockedWrites := AList (fun _ : Int => Nat)

/-- A client's thread inside `RaftWriteTracker::append`, which holds both locks. -/
inductive Writing
  /-- The entry is in the journal. -/
  | appended (queue : Nat) (index : Int) (tx : Transaction)
  /-- And the queue is among the blocked writes. -/
  | inserted (queue : Nat) (index : Int) (tx : Transaction)

/-- A thread inside `appendEntries`, which holds `raftCommand`. -/
inductive Receiving
  /-- The sender is recognized as leader. -/
  | entered (req : RaftAppendEntriesRequest)
  /-- The queues are flushed. -/
  | flushed (req : RaftAppendEntriesRequest)
  /-- The entries are compared with those of the journal. -/
  | compared (req : RaftAppendEntriesRequest) (firstInconsistency : Int)
  /-- What is inconsistent is removed, and entries are appended one by one. -/
  | appending (index : Int) (entries : List RaftEntry) (commitIndex : Int)
  | appended (commitIndex : Int)

/-- The commit applier inside `updatedCommitIndex`, which holds the lock of the tracker. -/
structure Applying where
  index : Int
  commitIndex : Int

structure TrackedNode where
  journal : RaftJournal
  blockedWrites : RaftBlockedWrites
  queues : Nat → PendingQueue
  machine : Applied
  /-- The commit index that the applier has read. -/
  seen : Int
  writing : Option Writing
  receiving : Option Receiving
  applying : Option Applying

/-- One step of one thread. -/
inductive TrackStep
  | detach (queue : Nat)
  | response (queue : Nat) (raw : Bytes)
  | read (queue : Nat) (tx : Transaction)
  /-- A client takes both locks, and appends to the journal. -/
  | append (queue : Nat) (index : Int) (term : Int) (tx : Transaction)
  | insertBlocked
  | addPending
  | beginReceive (req : RaftAppendEntriesRequest)
  | receive
  /-- `flushQueues`, as the director calls it. -/
  | flushQueues
  /-- An entry that comes from no client: a marker, or new members. -/
  | appendOwn (index : Int) (entry : RaftEntry)
  | setCurrentTerm (term : Int) (vote : RaftServer)
  | setCommitIndex (index : Int)
  | trimUntil (newLogStart : Int)
  | readCommitIndex
  | beginApply
  | applySingleCommit

namespace TrackedNode

def setQueue (n : TrackedNode) (queue : Nat) (q : PendingQueue) : TrackedNode :=
  { n with queues := fun k => if k = queue then q else n.queues k }

/-- Is the lock of the tracker free? -/
def mtxFree (n : TrackedNode) : Bool := n.writing.isNone && n.applying.isNone

/-- Is `raftCommand` free? -/
def raftCommandFree (n : TrackedNode) : Bool := n.writing.isNone && n.receiving.isNone

/-- `RaftBlockedWrites::flush`. -/
def flush (n : TrackedNode) : TrackedNode :=
  { n with
    queues := fun k => if k ∈ n.blockedWrites.entries.map Sigma.snd then (n.queues k).flushPending
      else n.queues k
    blockedWrites := ∅ }

/-- A throw ends the process. -/
def orDie {α : Type} (r : Except Fault α) : Option α := r.toOption

/-- The next phase of `appendEntries`. -/
def receivePhase (n : TrackedNode) : Receiving → Option TrackedNode
  | .entered req =>
    if n.mtxFree then some { n.flush with receiving := some (.flushed req) } else some n
  | .flushed req =>
    if !n.journal.matchEntries req.prevIndex req.prevTerm then some { n with receiving := none }
    else do
      let first ← orDie (n.journal.compareEntries (req.prevIndex + 1) req.entries)
      return { n with receiving := some (.compared req first) }
  | .compared req first =>
    if req.entries.length ≤ first - (req.prevIndex + 1) then
      some { n with receiving := some (.appended req.commitIndex) }
    else if first ≤ n.journal.commitIndex then none
    else if first ≠ n.journal.logSize ∧ first ≤ n.machine.lastApplied then none
    else do
      let _ ← orDie ((RaftJournal.removeEntries first).on n.journal).1
      return { n with
        journal := ((RaftJournal.removeEntries first).on n.journal).2
        receiving := some (.appending first (req.entries.drop (first - (req.prevIndex + 1)).toNat)
          req.commitIndex) }
  | .appending _ [] commitIndex => some { n with receiving := some (.appended commitIndex) }
  | .appending index (entry :: rest) commitIndex => do
    let ok ← orDie ((RaftJournal.append index entry).on n.journal).1
    return { n with
      journal := ((RaftJournal.append index entry).on n.journal).2
      receiving := if ok then some (.appending (index + 1) rest commitIndex) else none }
  | .appended commitIndex => do
    let index := min (n.journal.logSize - 1) commitIndex
    let _ ← orDie ((RaftJournal.setCommitIndex index).on n.journal).1
    return { n with
      journal := ((RaftJournal.setCommitIndex index).on n.journal).2, receiving := none }

/-- `RaftWriteTracker::applySingleCommit`. -/
def applyIndex (n : TrackedNode) (index : Int) : Option TrackedNode :=
  match n.blockedWrites.lookup index with
  | none => do
    let entry ← n.journal.fetch index
    let machine ← orDie (n.machine.dispatch entry.request index)
    return { n with machine }
  | some queue => do
    let (machine, left, newBlockingIndex) ← orDie
      (PendingQueue.dispatchLoop index n.machine false (n.queues queue).pending)
    let blockedWrites := n.blockedWrites.erase index
    let n := { n.setQueue queue { n.queues queue with pending := left } with
      machine, blockedWrites }
    if 0 < newBlockingIndex then
      if newBlockingIndex ≤ index then none
      else return { n with blockedWrites := blockedWrites.insert newBlockingIndex queue }
    else return n

/-- What a step makes of the node: nothing when a lock is taken, and `none` when it
throws and the process ends. -/
def next (n : TrackedNode) : TrackStep → Option TrackedNode
  | .detach queue => some (n.setQueue queue { n.queues queue with attached := false })
  | .response queue raw => do
    let q ← orDie ((n.queues queue).appendResponse raw)
    return n.setQueue queue q
  | .read queue tx =>
    if tx.containsWrites then some n
    else do
      let q ← orDie ((n.queues queue).addPendingTransaction tx (-1))
      return n.setQueue queue q
  | .append queue index term tx =>
    if n.raftCommandFree ∧ n.mtxFree then do
      let entry : RaftEntry := { term, request := tx.toRedisRequest }
      let ok ← orDie ((RaftJournal.append index entry).on n.journal).1
      if ok then
        return { n with
          journal := ((RaftJournal.append index entry).on n.journal).2
          writing := some (.appended queue index tx) }
      else return n
    else some n
  | .insertBlocked =>
    match n.writing with
    | some (.appended queue index tx) =>
      some { n with
        blockedWrites := n.blockedWrites.insert index queue
        writing := some (.inserted queue index tx) }
    | _ => some n
  | .addPending =>
    match n.writing with
    | some (.inserted queue index tx) => do
      let q ← orDie ((n.queues queue).addPendingTransaction tx index)
      return { n.setQueue queue q with writing := none }
    | _ => some n
  | .beginReceive req =>
    if n.raftCommandFree then some { n with receiving := some (.entered req) } else some n
  | .receive =>
    match n.receiving with
    | some phase => n.receivePhase phase
    | none => some n
  | .flushQueues => if n.mtxFree then some n.flush else some n
  | .appendOwn index entry => do
    let _ ← orDie ((RaftJournal.append index entry).on n.journal).1
    return { n with journal := ((RaftJournal.append index entry).on n.journal).2 }
  | .setCurrentTerm term vote => do
    let _ ← orDie ((RaftJournal.setCurrentTerm term vote).on n.journal).1
    return { n with journal := ((RaftJournal.setCurrentTerm term vote).on n.journal).2 }
  | .setCommitIndex index => do
    let _ ← orDie ((RaftJournal.setCommitIndex index).on n.journal).1
    return { n with journal := ((RaftJournal.setCommitIndex index).on n.journal).2 }
  | .trimUntil newLogStart => do
    let _ ← orDie ((RaftJournal.trimUntil newLogStart).on n.journal).1
    return { n with journal := ((RaftJournal.trimUntil newLogStart).on n.journal).2 }
  | .readCommitIndex => some { n with seen := n.journal.commitIndex }
  | .beginApply =>
    if n.mtxFree then
      some { n with applying := some { index := n.machine.lastApplied + 1, commitIndex := n.seen } }
    else some n
  | .applySingleCommit =>
    match n.applying with
    | none => some n
    | some a =>
      if a.commitIndex < a.index then some { n with applying := none }
      else do
        let n ← n.applyIndex a.index
        return { n with applying := some { a with index := a.index + 1 } }

def runAll (n : TrackedNode) : List TrackStep → Option TrackedNode
  | [] => some n
  | x :: xs => n.next x >>= fun n => n.runAll xs

/-- A node that just started, with what its state machine has applied so far. -/
def startOn (journal : RaftJournal) (lastApplied : Int) : TrackedNode :=
  { journal, blockedWrites := ∅, queues := fun _ => {}, machine := { lastApplied, history := [] }
    seen := journal.commitIndex, writing := none, receiving := none, applying := none }

theorem not_some_of_none {α : Type} {o : Option α} {a : α} (h : o = none) (h' : o = some a) :
    False := by
  rw [h] at h'
  cases h'

/-! ## The journal while writes wait -/

/-- The journal grows: what is stored below its old end is what was stored there,
or it was trimmed. -/
structure Grows (j j' : RaftJournal) : Prop where
  good : RaftJournal.Good j'
  commit_le : j.commitIndex ≤ j'.commitIndex
  size_le : j.logSize ≤ j'.logSize
  kept : ∀ i e, i < j.logSize → j'.db.entries i = some e → j.db.entries i = some e

theorem grows_self {j : RaftJournal} (h : RaftJournal.Good j) : Grows j j :=
  ⟨h, le_refl _, le_refl _, fun _ _ _ => id⟩

theorem grows_append {j : RaftJournal} (h : RaftJournal.Good j) (index : Int) (entry : RaftEntry) :
    Grows j ((RaftJournal.append index entry).on j).2 := by
  have hg := (RaftJournal.good_appendNoLock h index entry .reopen).1
  unfold RaftJournal.append
  rcases RaftJournal.appendNoLock_cases h.commit_lt_size (RaftJournal.size_nonneg h) index entry with
    ⟨r, hr, -⟩ | ⟨-, -, -, j', ht, hr⟩
  · rw [hr]
    exact grows_self h
  · rw [hr] at hg ⊢
    obtain ⟨f1, f2, f3, f4, -⟩ := RaftJournal.takes_frame ht
    refine ⟨hg, le_of_eq f4.symm, ?_, fun i e hi he => ?_⟩
    · show j.logSize ≤ j'.logSize + 1
      omega
    · rw [RaftJournal.withEntry_entries, if_neg (by omega), f1] at he
      exact he

theorem grows_setCommitIndex {j : RaftJournal} (h : RaftJournal.Good j) (index : Int) :
    Grows j ((RaftJournal.setCommitIndex index).on j).2 := by
  obtain ⟨hg, hc, -⟩ := RaftJournal.good_setCommitIndex h index .reopen
  refine ⟨hg, hc.1, ?_, fun i e hi he => ?_⟩
  · rw [RaftJournal.setCommitIndex_on]
    split_ifs <;> exact le_refl _
  · rw [RaftJournal.setCommitIndex_on] at he
    split_ifs at he <;> exact he

theorem grows_setCurrentTerm {j : RaftJournal} (h : RaftJournal.Good j) (term : Int)
    (vote : RaftServer) : Grows j ((RaftJournal.setCurrentTerm term vote).on j).2 := by
  obtain ⟨hg, hc⟩ := RaftJournal.good_setCurrentTerm h term vote .reopen
  refine ⟨hg, hc.1, ?_, fun i e hi he => ?_⟩
  · rw [RaftJournal.setCurrentTerm_on]
    split_ifs <;> exact le_refl _
  · rw [RaftJournal.setCurrentTerm_on] at he
    split_ifs at he <;> exact he

theorem grows_trimUntil {j : RaftJournal} (h : RaftJournal.Good j) (newLogStart : Int) :
    Grows j ((RaftJournal.trimUntil newLogStart).on j).2 := by
  obtain ⟨hg, hc, -⟩ := RaftJournal.good_trimUntil h newLogStart
  refine ⟨hg, hc.1, ?_, fun i e hi he => ?_⟩
  · rw [RaftJournal.trimUntil_on]
    split_ifs <;> exact le_refl _
  · rw [RaftJournal.trimUntil_on] at he
    split_ifs at he
    · exact he
    · exact he
    · exact he
    · have he : (if j.logStart ≤ i ∧ i < newLogStart then none else j.db.entries i) = some e := he
      split_ifs at he
      exact he

/-! ## The invariant -/

/-- The requests of a queue that wait for an index. -/
def writesOf (q : PendingQueue) : List PendingRequest := q.pending.filter fun p => 0 < p.index

/-- Some requests are known to be committed at their index: those the journal held
there at some moment of the run. -/
abbrev Known := Int → Option RedisRequest

variable {known : Known}

/-- A request is what the journal holds at its index, unless that is trimmed, and
what is known to be committed there. -/
def Holds (known : Known) (j : RaftJournal) (index : Int) (request : RedisRequest) : Prop :=
  (∀ e, j.db.entries index = some e → e.request = request) ∧
    ∀ r, known index = some r → request = r

/-- No queue has a write that waits. -/
def NoneWait (n : TrackedNode) : Prop := ∀ k, writesOf (n.queues k) = []

/-- What is known while a client is inside `append`. -/
def WritingSound (known : Known) (n : TrackedNode) : Writing → Prop
  | .appended _ index tx =>
    0 < index ∧ index < n.journal.logSize ∧ Holds known n.journal index tx.toRedisRequest ∧
      ∀ k, ∀ p ∈ writesOf (n.queues k), p.index < index
  | .inserted queue index tx =>
    0 < index ∧ index < n.journal.logSize ∧ Holds known n.journal index tx.toRedisRequest ∧
      (∀ k, ∀ p ∈ writesOf (n.queues k), p.index < index) ∧
      n.blockedWrites.lookup index = some queue

/-- Once the queues are flushed, nothing waits until `appendEntries` returns. -/
def ReceivingSound (n : TrackedNode) : Receiving → Prop
  | .entered _ => True
  | _ => NoneWait n ∧ n.blockedWrites = ∅

structure Tracked (known : Known) (n : TrackedNode) : Prop where
  good : RaftJournal.Good n.journal
  applied_le : n.machine.lastApplied ≤ n.journal.commitIndex
  seen_le : n.seen ≤ n.journal.commitIndex
  /-- A write that waits in a queue is the entry at its index, and its queue is blocked on it. -/
  blocked : ∀ k, ∀ p ∈ writesOf (n.queues k), n.blockedWrites.lookup p.index = some k ∧
    p.index < n.journal.logSize ∧ Holds known n.journal p.index p.tx.toRedisRequest
  /-- The writes of a queue are in the order of their indices. -/
  ordered : ∀ k, (writesOf (n.queues k)).Pairwise fun p p' => p.index < p'.index
  /-- What was applied is what the journal holds. -/
  applied : ∀ i r, (i, r) ∈ n.machine.history → i ≤ n.machine.lastApplied ∧ Holds known n.journal i r
  /-- A client inside `append` holds both locks. -/
  one_holds : n.writing ≠ none → n.receiving = none ∧ n.applying = none
  writing_sound : ∀ w, n.writing = some w → WritingSound known n w
  receiving_sound : ∀ r, n.receiving = some r → ReceivingSound n r
  applying_le : ∀ a, n.applying = some a → a.commitIndex ≤ n.journal.commitIndex
  known_committed : ∀ i r, known i = some r →
    i ≤ n.journal.commitIndex ∧ ∀ e, n.journal.db.entries i = some e → e.request = r

theorem holds_of_grows {j j' : RaftJournal} (h : Grows j j') {i : Int} {r : RedisRequest}
    (hi : i < j.logSize) (hh : Holds known j i r) : Holds known j' i r := by
  exact ⟨fun e he => hh.1 e (h.kept i e hi he), hh.2⟩

/-- A step of the journal that only grows keeps the invariant. -/
theorem tracked_grows {n : TrackedNode} (h : Tracked known n) {j : RaftJournal} (hj : Grows n.journal j) :
    Tracked known { n with journal := j } := by
  have hc := h.good.commit_lt_size
  have hcj := hj.commit_le
  refine ⟨hj.good, le_trans h.applied_le hcj, le_trans h.seen_le hcj, fun k p hp => ?_, h.ordered,
    fun i r hi => ?_, h.one_holds, fun w hw => ?_, fun r hr => ?_, fun a ha => ?_, fun i r hi => ?_⟩
  · obtain ⟨h1, h2, h3⟩ := h.blocked k p hp
    exact ⟨h1, lt_of_lt_of_le h2 hj.size_le, holds_of_grows hj h2 h3⟩
  · obtain ⟨h1, h2⟩ := h.applied i r hi
    have hle := h.applied_le
    exact ⟨h1, holds_of_grows hj (by omega) h2⟩
  · have hs := h.writing_sound w hw
    cases w with
    | appended queue index tx =>
      obtain ⟨h1, h2, h3, h4⟩ := hs
      exact ⟨h1, lt_of_lt_of_le h2 hj.size_le, holds_of_grows hj h2 h3, h4⟩
    | inserted queue index tx =>
      obtain ⟨h1, h2, h3, h4⟩ := hs
      exact ⟨h1, lt_of_lt_of_le h2 hj.size_le, holds_of_grows hj h2 h3, h4⟩
  · have hs := h.receiving_sound r hr
    cases r <;> exact hs
  · exact le_trans (h.applying_le a ha) hcj
  · obtain ⟨h1, h2⟩ := h.known_committed i r hi
    exact ⟨le_trans h1 hcj, fun e he => h2 e (hj.kept i e (by omega) he)⟩

/-! ## Steps on the queues -/

theorem writesOf_setQueue {n : TrackedNode} {queue : Nat} {q : PendingQueue}
    (hq : writesOf q = writesOf (n.queues queue)) (k : Nat) :
    writesOf ((n.setQueue queue q).queues k) = writesOf (n.queues k) := by
  show writesOf (if k = queue then q else n.queues k) = _
  split_ifs with hk
  · rw [hq, hk]
  · rfl

/-- A step that leaves the writes of every queue as they are. -/
theorem tracked_setQueue {n : TrackedNode} (h : Tracked known n) {queue : Nat} {q : PendingQueue}
    (hq : writesOf q = writesOf (n.queues queue)) : Tracked known (n.setQueue queue q) := by
  have hw := writesOf_setQueue hq
  refine ⟨h.good, h.applied_le, h.seen_le, fun k p hp => ?_, fun k => ?_, h.applied, h.one_holds,
    fun w hs => ?_, fun r hr => ?_, h.applying_le, h.known_committed⟩
  · rw [hw k] at hp
    exact h.blocked k p hp
  · rw [hw k]
    exact h.ordered k
  · have hs := h.writing_sound w hs
    cases w with
    | appended queue' index tx =>
      obtain ⟨h1, h2, h3, h4⟩ := hs
      refine ⟨h1, h2, h3, fun k p hp => ?_⟩
      rw [hw k] at hp
      exact h4 k p hp
    | inserted queue' index tx =>
      obtain ⟨h1, h2, h3, h4, h5⟩ := hs
      refine ⟨h1, h2, h3, fun k p hp => ?_, h5⟩
      rw [hw k] at hp
      exact h4 k p hp
  · have hs := h.receiving_sound r hr
    have hnone : NoneWait n → NoneWait (n.setQueue queue q) := by
      intro hn k
      rw [hw k]
      exact hn k
    cases r with
    | entered req => exact hs
    | flushed req => exact ⟨hnone hs.1, hs.2⟩
    | compared req first => exact ⟨hnone hs.1, hs.2⟩
    | appending index entries commitIndex => exact ⟨hnone hs.1, hs.2⟩
    | appended commitIndex => exact ⟨hnone hs.1, hs.2⟩

theorem writesOf_push (q : PendingQueue) (lastIndex : Int) (p : PendingRequest) :
    writesOf { q with lastIndex, pending := q.pending ++ [p] } =
      if 0 < p.index then writesOf q ++ [p] else writesOf q := by
  unfold writesOf
  rw [List.filter_append]
  split_ifs with hp <;> simp [hp]

/-- What `appendResponse` and the read of a client add to a queue is no write. -/
theorem writesOf_appendResponse {q q' : PendingQueue} {raw : Bytes}
    (h : q.appendResponse raw = .ok q') : writesOf q' = writesOf q := by
  unfold PendingQueue.appendResponse at h
  split_ifs at h
  · cases h
    rfl
  · cases h
    exact writesOf_push q q.lastIndex { rawResp := raw }

theorem addPendingTransaction_cases {q q' : PendingQueue} {tx : Transaction} {index : Int}
    (h : q.addPendingTransaction tx index = .ok q') :
    (index < 0 ∧ writesOf q' = writesOf q) ∨
      writesOf q' = if 0 < index then writesOf q ++ [({ tx, index } : PendingRequest)] else writesOf q := by
  unfold PendingQueue.addPendingTransaction at h
  split_ifs at h with h1 h2 h3
  · cases hw : tx.containsWrites with
    | true => simp [hw, qdbAssert, bind, Except.bind] at h
    | false =>
      simp only [hw, qdbAssert, bind, Except.bind, Bool.not_false, if_true, pure, Except.pure] at h
      cases h
      exact .inl ⟨h2.2, rfl⟩
  · cases h
    exact .inr (writesOf_push q _ { tx, index })
  · cases h
    exact .inr (writesOf_push q _ { tx, index })

/-! ## Flushing -/

/-- After a flush nothing waits: a queue with a write is among the blocked ones. -/
theorem noneWait_flush {n : TrackedNode} (h : Tracked known n) : NoneWait n.flush := by
  intro k
  show writesOf (if k ∈ n.blockedWrites.entries.map Sigma.snd then (n.queues k).flushPending
    else n.queues k) = []
  split_ifs with hk
  · rfl
  · rw [List.eq_nil_iff_forall_not_mem]
    intro p hp
    obtain ⟨hl, -⟩ := h.blocked k p hp
    have hm : (⟨p.index, k⟩ : Sigma fun _ : Int => Nat) ∈ n.blockedWrites.entries :=
      AList.mem_lookup_iff.mp hl
    exact hk (List.mem_map.mpr ⟨_, hm, rfl⟩)

theorem tracked_flush {n : TrackedNode} (h : Tracked known n) (hw : n.writing = none) :
    Tracked known n.flush := by
  have hn := noneWait_flush h
  refine ⟨h.good, h.applied_le, h.seen_le, fun k p hp => ?_, fun k => ?_, h.applied, h.one_holds,
    fun w hs => ?_, fun r hr => ?_, h.applying_le, h.known_committed⟩
  · rw [hn k] at hp
    exact absurd hp List.not_mem_nil
  · rw [hn k]
    exact List.Pairwise.nil
  · exact (not_some_of_none hw hs).elim
  · cases r with
    | entered req => exact True.intro
    | flushed req => exact ⟨hn, rfl⟩
    | compared req first => exact ⟨hn, rfl⟩
    | appending index entries commitIndex => exact ⟨hn, rfl⟩
    | appended commitIndex => exact ⟨hn, rfl⟩

/-! ## Writes of clients -/

/-- An append that the journal took. -/
theorem append_ok {j : RaftJournal} (h : RaftJournal.Good j) {index : Int} {entry : RaftEntry}
    (hok : ((RaftJournal.append index entry).on j).1 = .ok true) :
    index = j.logSize ∧
      index < ((RaftJournal.append index entry).on j).2.logSize ∧
      ∀ e, ((RaftJournal.append index entry).on j).2.db.entries index = some e →
        e.request = entry.request := by
  unfold RaftJournal.append at hok ⊢
  rcases RaftJournal.appendNoLock_cases h.commit_lt_size (RaftJournal.size_nonneg h) index entry with
    ⟨r, hr, hne⟩ | ⟨hi, -, -, j', ht, hr⟩
  · rw [hr] at hok
    exact absurd hok hne
  · rw [hr]
    obtain ⟨-, f2, -⟩ := RaftJournal.takes_frame ht
    refine ⟨hi, ?_, fun e he => ?_⟩
    · show index < j'.logSize + 1
      omega
    · rw [RaftJournal.withEntry_entries, if_pos (by omega)] at he
      cases he
      rfl

theorem mtxFree_iff {n : TrackedNode} :
    n.mtxFree = true ↔ n.writing = none ∧ n.applying = none := by
  simp [mtxFree]

theorem raftCommandFree_iff {n : TrackedNode} :
    n.raftCommandFree = true ↔ n.writing = none ∧ n.receiving = none := by
  simp [raftCommandFree]

theorem orDie_some {α : Type} {r : Except Fault α} {a : α} (h : orDie r = some a) : r = .ok a := by
  cases r with
  | error e => cases h
  | ok b =>
    cases h
    rfl

theorem tracked_append {n : TrackedNode} (h : Tracked known n) (hr : n.receiving = none)
    (ha : n.applying = none) {queue : Nat} {index term : Int} {tx : Transaction}
    (hok : ((RaftJournal.append index { term, request := tx.toRedisRequest }).on n.journal).1 =
      .ok true) :
    Tracked known { n with
      journal := ((RaftJournal.append index { term, request := tx.toRedisRequest }).on n.journal).2
      writing := some (.appended queue index tx) } := by
  obtain ⟨h1, h2, h3⟩ := append_ok h.good hok
  have hg := tracked_grows h (grows_append h.good index { term, request := tx.toRedisRequest })
  have hc := h.good.commit_lt_size
  have hs := h.good.start_le_commit
  have h0 := h.good.start_nonneg
  refine ⟨hg.good, hg.applied_le, hg.seen_le, hg.blocked, hg.ordered, hg.applied, ?_, ?_, ?_, ?_,
    hg.known_committed⟩
  · exact fun _ => ⟨hr, ha⟩
  · rintro w ⟨⟩
    refine ⟨by omega, h2, ⟨h3, fun r hr => ?_⟩, fun k p hp => ?_⟩
    · have := (h.known_committed index r hr).1
      omega
    · obtain ⟨-, hlt, -⟩ := h.blocked k p hp
      omega
  · exact fun r hr' => (not_some_of_none hr hr').elim
  · exact fun a ha' => (not_some_of_none ha ha').elim

/-- Blocking a queue on the index of a new write: no write of a queue has it. -/
theorem tracked_insertBlocked {n : TrackedNode} (h : Tracked known n) {queue : Nat} {index : Int}
    {tx : Transaction} (hw : n.writing = some (.appended queue index tx)) :
    Tracked known { n with
      blockedWrites := n.blockedWrites.insert index queue
      writing := some (.inserted queue index tx) } := by
  obtain ⟨h1, h2, h3, h4⟩ := h.writing_sound _ hw
  obtain ⟨hr, ha⟩ := h.one_holds (by rw [hw]; exact Option.some_ne_none _)
  refine ⟨h.good, h.applied_le, h.seen_le, fun k p hp => ?_, h.ordered, h.applied, ?_, ?_, ?_, ?_,
    h.known_committed⟩
  · obtain ⟨b1, b2⟩ := h.blocked k p hp
    have hlt := h4 k p hp
    refine ⟨?_, b2⟩
    show (n.blockedWrites.insert index queue).lookup p.index = some k
    rw [AList.lookup_insert_ne (by omega)]
    exact b1
  · exact fun _ => ⟨hr, ha⟩
  · rintro w ⟨⟩
    exact ⟨h1, h2, h3, h4, AList.lookup_insert _⟩
  · exact fun r hr' => (not_some_of_none hr hr').elim
  · exact fun a ha' => (not_some_of_none ha ha').elim

theorem tracked_addPending {n : TrackedNode} (h : Tracked known n) {queue : Nat} {index : Int}
    {tx : Transaction} (hw : n.writing = some (.inserted queue index tx)) {q : PendingQueue}
    (hq : (n.queues queue).addPendingTransaction tx index = .ok q) :
    Tracked known { n.setQueue queue q with writing := none } := by
  obtain ⟨h1, h2, h3, h4, h5⟩ := h.writing_sound _ hw
  obtain ⟨hr, ha⟩ := h.one_holds (by rw [hw]; exact Option.some_ne_none _)
  have hwq : writesOf q = writesOf (n.queues queue) ++ [({ tx, index } : PendingRequest)] := by
    rcases addPendingTransaction_cases hq with ⟨hn, -⟩ | hq
    · omega
    · rw [hq, if_pos h1]
  refine ⟨h.good, h.applied_le, h.seen_le, fun k p hp => ?_, fun k => ?_, h.applied, ?_, ?_, ?_, ?_,
    h.known_committed⟩
  · have hp : p ∈ writesOf (if k = queue then q else n.queues k) := hp
    split_ifs at hp with hk
    · rw [hwq, List.mem_append, List.mem_singleton] at hp
      rcases hp with hp | rfl
      · rw [hk]
        exact h.blocked queue p hp
      · rw [hk]
        exact ⟨h5, h2, h3⟩
    · exact h.blocked k p hp
  · show (writesOf (if k = queue then q else n.queues k)).Pairwise _
    split_ifs with hk
    · rw [hwq, List.pairwise_append]
      refine ⟨h.ordered queue, List.pairwise_singleton _ _, fun p hp p' hp' => ?_⟩
      rw [List.mem_singleton.mp hp']
      exact h4 queue p hp
    · exact h.ordered k
  · exact fun hh => absurd rfl hh
  · exact fun w hw' => (not_some_of_none rfl hw').elim
  · exact fun r hr' => (not_some_of_none hr hr').elim
  · exact fun a ha' => (not_some_of_none ha ha').elim

/-! ## Entries of another leader -/

/-- What `appendEntries` removes is neither applied nor waited for. -/
theorem tracked_removeEntries {n : TrackedNode} (h : Tracked known n) (hw : n.writing = none)
    (hn : NoneWait n) (first : Int) :
    Tracked known { n with journal := ((RaftJournal.removeEntries first).on n.journal).2 } := by
  obtain ⟨hg, hc, -⟩ := RaftJournal.good_removeEntries h.good first .reopen
  have hkept : ∀ i e, i ≤ n.journal.commitIndex →
      ((RaftJournal.removeEntries first).on n.journal).2.db.entries i = some e →
      n.journal.db.entries i = some e := by
    intro i e hi he
    rcases hc.2.2 i hi with hk | ⟨⟨m, hm⟩, -⟩
    · exact hk.symm.trans he
    · cases hm
  refine ⟨hg, le_trans h.applied_le hc.1, le_trans h.seen_le hc.1, fun k p hp => ?_, h.ordered,
    fun i r hi => ?_, h.one_holds, fun w hw' => ?_, fun r hr => ?_,
    fun a ha => le_trans (h.applying_le a ha) hc.1, fun i r hi => ?_⟩
  · have hp : p ∈ writesOf (n.queues k) := hp
    rw [hn k] at hp
    exact absurd hp List.not_mem_nil
  · obtain ⟨h1, h2⟩ := h.applied i r hi
    exact ⟨h1, fun e he => h2.1 e (hkept i e (le_trans h1 h.applied_le) he), h2.2⟩
  · exact (not_some_of_none hw hw').elim
  · have hs := h.receiving_sound r hr
    cases r <;> exact hs
  · obtain ⟨h1, h2⟩ := h.known_committed i r hi
    exact ⟨le_trans h1 hc.1, fun e he => h2 e (hkept i e h1 he)⟩

/-- The phase of `appendEntries` may change as long as nothing waits in the new one. -/
theorem tracked_phase {n : TrackedNode} (h : Tracked known n) (hw : n.writing = none)
    {phase : Option Receiving} (hp : ∀ r, phase = some r → ReceivingSound n r) :
    Tracked known { n with receiving := phase } := by
  refine ⟨h.good, h.applied_le, h.seen_le, h.blocked, h.ordered, h.applied, ?_, fun w hw' => ?_,
    fun r hr => ?_, h.applying_le, h.known_committed⟩
  · exact fun hh => absurd hw hh
  · exact (not_some_of_none hw hw').elim
  · have hs := hp r hr
    cases r <;> exact hs

/-- One phase of `appendEntries`. -/
theorem tracked_receivePhase {n n' : TrackedNode} (h : Tracked known n) {phase : Receiving}
    (hp : n.receiving = some phase) (hn : n.receivePhase phase = some n') : Tracked known n' := by
  have hw : n.writing = none := by
    by_contra hh
    exact not_some_of_none (h.one_holds hh).1 hp
  have hs := h.receiving_sound phase hp
  cases phase with
  | entered req =>
    simp only [receivePhase] at hn
    split_ifs at hn
    · cases hn
      refine tracked_phase (tracked_flush h hw) hw ?_
      rintro r ⟨⟩
      exact ⟨noneWait_flush h, rfl⟩
    · cases hn
      exact h
  | flushed req =>
    simp only [receivePhase] at hn
    split_ifs at hn
    · cases hn
      exact tracked_phase h hw (by rintro r ⟨⟩)
    · obtain ⟨first, -, hn⟩ := Option.bind_eq_some_iff.mp hn
      cases hn
      refine tracked_phase h hw ?_
      rintro r ⟨⟩
      exact hs
  | compared req first =>
    simp only [receivePhase] at hn
    split_ifs at hn
    · cases hn
      refine tracked_phase h hw ?_
      rintro r ⟨⟩
      exact hs
    · obtain ⟨b, -, hn⟩ := Option.bind_eq_some_iff.mp hn
      cases hn
      refine tracked_phase (tracked_removeEntries h hw hs.1 first) hw ?_
      rintro r ⟨⟩
      exact hs
  | appending index entries commitIndex =>
    cases entries with
    | nil =>
      simp only [receivePhase] at hn
      cases hn
      refine tracked_phase h hw ?_
      rintro r ⟨⟩
      exact hs
    | cons entry rest =>
      simp only [receivePhase] at hn
      obtain ⟨ok, -, hn⟩ := Option.bind_eq_some_iff.mp hn
      cases hn
      refine tracked_phase (tracked_grows h (grows_append h.good index entry)) hw fun r hr => ?_
      split_ifs at hr
      cases hr
      exact hs
  | appended commitIndex =>
    simp only [receivePhase] at hn
    obtain ⟨b, -, hn⟩ := Option.bind_eq_some_iff.mp hn
    cases hn
    exact tracked_phase (tracked_grows h (grows_setCommitIndex h.good _)) hw (by rintro r ⟨⟩)

/-! ## Applying -/

theorem dispatch_ok {a a' : Applied} {request : RedisRequest} {index : Int} (h0 : 0 < index)
    (h : a.dispatch request index = .ok a') :
    a' = { lastApplied := index, history := a.history ++ [(index, request)] } ∧
      index = a.lastApplied + 1 := by
  unfold Applied.dispatch at h
  rw [if_neg (by omega)] at h
  split_ifs at h with hi
  · cases h
    exact ⟨rfl, not_not.mp hi⟩

/-- The queue has nothing left, or its first request comes after the committed index. -/
def Blocks (commitIndex : Int) (left : List PendingRequest) (newBlockingIndex : Int) : Prop :=
  left = [] ∧ newBlockingIndex = -1 ∨
    ∃ p rest, left = p :: rest ∧ commitIndex < p.index ∧ newBlockingIndex = p.index

/-- What the loop of `dispatchPending` leaves in the queue comes after the committed
index, and it applies at most one write, the one with that index. -/
theorem dispatchLoop_ok {commitIndex : Int} {a a' : Applied} {found : Bool}
    {pending left : List PendingRequest} {newBlockingIndex : Int}
    (h : PendingQueue.dispatchLoop commitIndex a found pending = .ok (a', left, newBlockingIndex)) :
    (∃ done, pending = done ++ left) ∧ Blocks commitIndex left newBlockingIndex ∧
    (a' = a ∨ found = false ∧ ∃ p ∈ pending, 0 < p.index ∧ p.index = commitIndex ∧
      a.dispatch p.tx.toRedisRequest p.index = .ok a') := by
  induction pending generalizing a found with
  | nil =>
    unfold PendingQueue.dispatchLoop at h
    split_ifs at h
    cases h
    exact ⟨⟨[], rfl⟩, .inl ⟨rfl, rfl⟩, .inl rfl⟩
  | cons req rest ih =>
    unfold PendingQueue.dispatchLoop at h
    split_ifs at h with h1 h2 h3 h4 h5
    · cases h
      exact ⟨⟨[], rfl⟩, .inr ⟨req, rest, rfl, h1, rfl⟩, .inl rfl⟩
    · obtain ⟨⟨done, hd⟩, hb, ha⟩ := ih h
      refine ⟨⟨req :: done, by rw [hd]; rfl⟩, hb, ?_⟩
      rcases ha with ha | ⟨hf, p, hp, ha⟩
      · exact .inl ha
      · exact .inr ⟨hf, p, List.mem_cons_of_mem _ hp, ha⟩
    · -- The write with the committed index; from here on none is left to apply.
      cases hd : a.dispatch req.tx.toRedisRequest req.index with
      | error e =>
        rw [hd] at h
        cases h
      | ok a1 =>
        rw [hd] at h
        obtain ⟨⟨done, hdone⟩, hb, ha⟩ := ih h
        refine ⟨⟨req :: done, by rw [hdone]; rfl⟩, hb, .inr ⟨by simpa using h4, req,
          List.mem_cons_self, h3, not_not.mp h5, ?_⟩⟩
        rcases ha with rfl | ⟨hf, -⟩
        · exact hd
        · cases hf
    · obtain ⟨⟨done, hd⟩, hb, ha⟩ := ih h
      refine ⟨⟨req :: done, by rw [hd]; rfl⟩, hb, ?_⟩
      rcases ha with ha | ⟨hf, p, hp, ha⟩
      · exact .inl ha
      · exact .inr ⟨hf, p, List.mem_cons_of_mem _ hp, ha⟩

/-- The state machine takes a request with an index that is committed, and that the
journal holds. -/
theorem tracked_dispatch {n : TrackedNode} (h : Tracked known n) {index : Int} {request : RedisRequest}
    (hi : index ≤ n.journal.commitIndex) (hh : Holds known n.journal index request) {machine : Applied}
    (hd : n.machine.dispatch request index = .ok machine) : Tracked known { n with machine } := by
  by_cases h0 : index ≤ 0
  · unfold Applied.dispatch at hd
    rw [if_pos h0] at hd
    cases hd
    exact h
  obtain ⟨rfl, hnext⟩ := dispatch_ok (not_le.mp h0) hd
  refine ⟨h.good, hi, h.seen_le, h.blocked, h.ordered, fun i r hir => ?_, h.one_holds,
    fun w hw => ?_, fun r hr => ?_, h.applying_le, h.known_committed⟩
  · have hir : (i, r) ∈ n.machine.history ++ [(index, request)] := hir
    rcases List.mem_append.mp hir with hir | hir
    · obtain ⟨h1, h2⟩ := h.applied i r hir
      exact ⟨by show i ≤ index; omega, h2⟩
    · cases List.mem_singleton.mp hir
      exact ⟨le_refl _, hh⟩
  · have hs := h.writing_sound w hw
    cases w <;> exact hs
  · have hs := h.receiving_sound r hr
    cases r <;> exact hs

/-- The writes that are left in the queue come after the committed index. -/
theorem lt_of_mem_left {n : TrackedNode} (h : Tracked known n) {queue : Nat} {index : Int}
    {done left : List PendingRequest} {newBlockingIndex : Int}
    (hd : (n.queues queue).pending = done ++ left) (hb : Blocks index left newBlockingIndex)
    {p : PendingRequest} (hp : p ∈ left) (h0 : 0 < p.index) :
    index < p.index ∧ p ∈ writesOf (n.queues queue) := by
  have hmem : ∀ p ∈ left, 0 < p.index → p ∈ writesOf (n.queues queue) := by
    intro p hp h0
    unfold writesOf
    rw [hd]
    exact List.mem_filter.mpr ⟨List.mem_append_right _ hp, by simpa using h0⟩
  refine ⟨?_, hmem p hp h0⟩
  rcases hb with ⟨rfl, -⟩ | ⟨q, rest, rfl, hq, -⟩
  · exact absurd hp List.not_mem_nil
  rcases List.mem_cons.mp hp with rfl | hp
  · exact hq
  by_cases hq0 : 0 < q.index
  · have ho := h.ordered queue
    unfold writesOf at ho
    rw [hd, List.filter_append, List.pairwise_append] at ho
    have ho := ho.2.1
    rw [List.filter_cons_of_pos (by simpa using hq0), List.pairwise_cons] at ho
    have := ho.1 p (List.mem_filter.mpr ⟨hp, by simpa using h0⟩)
    omega
  · omega

/-- The queue after `dispatchPending`, and the index it is blocked on now. -/
theorem tracked_left {n : TrackedNode} (h : Tracked known n) (hw : n.writing = none) {queue : Nat}
    {index : Int} (hl : n.blockedWrites.lookup index = some queue)
    {done left : List PendingRequest} {newBlockingIndex : Int}
    (hd : (n.queues queue).pending = done ++ left) (hb : Blocks index left newBlockingIndex)
    {blockedWrites : RaftBlockedWrites}
    (hbw : ∀ i, i ≠ index → blockedWrites.lookup i = n.blockedWrites.lookup i) :
    Tracked known { n.setQueue queue { n.queues queue with pending := left } with blockedWrites } := by
  have hleft : ∀ p ∈ writesOf { n.queues queue with pending := left },
      index < p.index ∧ p ∈ writesOf (n.queues queue) := by
    intro p hp
    obtain ⟨hp, h0⟩ := List.mem_filter.mp hp
    exact lt_of_mem_left h hd hb hp (by simpa using h0)
  refine ⟨h.good, h.applied_le, h.seen_le, fun k p hp => ?_, fun k => ?_, h.applied, ?_,
    fun w hw' => (not_some_of_none hw hw').elim, fun r hr => ?_, h.applying_le, h.known_committed⟩
  · have hp : p ∈ writesOf (if k = queue then { n.queues queue with pending := left }
      else n.queues k) := hp
    split_ifs at hp with hk
    · obtain ⟨hlt, hp⟩ := hleft p hp
      rw [hk]
      obtain ⟨b1, b2⟩ := h.blocked queue p hp
      exact ⟨(hbw p.index (by omega)).trans b1, b2⟩
    · obtain ⟨b1, b2⟩ := h.blocked k p hp
      refine ⟨(hbw p.index ?_).trans b1, b2⟩
      intro hpi
      rw [hpi, hl] at b1
      cases b1
      exact hk rfl
  · show (writesOf (if k = queue then { n.queues queue with pending := left }
      else n.queues k)).Pairwise _
    split_ifs with hk
    · have ho := h.ordered queue
      unfold writesOf at ho ⊢
      rw [hd, List.filter_append, List.pairwise_append] at ho
      exact ho.2.1
    · exact h.ordered k
  · exact fun hh => absurd hw hh
  · -- After a flush no queue is blocked, so `appendEntries` has not come to it.
    have hs := h.receiving_sound r hr
    have hne : n.blockedWrites ≠ ∅ := by
      intro he
      rw [he, AList.lookup_empty] at hl
      cases hl
    cases r with
    | entered req => exact True.intro
    | flushed req => exact absurd hs.2 hne
    | compared req first => exact absurd hs.2 hne
    | appending index entries commitIndex => exact absurd hs.2 hne
    | appended commitIndex => exact absurd hs.2 hne

theorem tracked_applyIndex {n n' : TrackedNode} (h : Tracked known n) (hw : n.writing = none)
    {index : Int} (hi : index ≤ n.journal.commitIndex) (hn : n.applyIndex index = some n') :
    Tracked known n' ∧ n'.writing = n.writing ∧ n'.journal = n.journal := by
  unfold applyIndex at hn
  cases hl : n.blockedWrites.lookup index with
  | none =>
    rw [hl] at hn
    obtain ⟨entry, he, hn⟩ := Option.bind_eq_some_iff.mp hn
    obtain ⟨machine, hm, hn⟩ := Option.bind_eq_some_iff.mp hn
    cases hn
    have he : n.journal.db.entries index = some entry := he
    refine ⟨tracked_dispatch h hi ⟨fun e' he' => ?_, fun r hr => ?_⟩ (orDie_some hm), rfl, rfl⟩
    · rw [he] at he'
      cases he'
      rfl
    · exact (h.known_committed index r hr).2 entry he
  | some queue =>
    rw [hl] at hn
    obtain ⟨⟨machine, left, newBlockingIndex⟩, hd, hn⟩ := Option.bind_eq_some_iff.mp hn
    obtain ⟨⟨done, hdone⟩, hb, ha⟩ := dispatchLoop_ok (orDie_some hd)
    have hmachine : Tracked known { n with machine } := by
      rcases ha with rfl | ⟨-, p, hp, h0, hpi, hm⟩
      · exact h
      · have hpw : p ∈ writesOf (n.queues queue) := List.mem_filter.mpr ⟨hp, by simpa using h0⟩
        obtain ⟨-, -, hh⟩ := h.blocked queue p hpw
        exact tracked_dispatch h (by omega) hh hm
    simp only at hn
    split_ifs at hn with h1 h2
    · cases hn
      refine ⟨tracked_left hmachine hw hl hdone hb fun i hne => ?_, rfl, rfl⟩
      by_cases hib : i = newBlockingIndex
      · -- The index it is blocked on now was blocked by this queue already.
        obtain ⟨p, rest, rfl, hlt, rfl⟩ : ∃ p rest, left = p :: rest ∧ index < p.index ∧
            newBlockingIndex = p.index := by
          rcases hb with ⟨-, hm⟩ | hb
          · omega
          · exact hb
        obtain ⟨-, hp⟩ := lt_of_mem_left h hdone hb List.mem_cons_self h1
        rw [hib, AList.lookup_insert]
        exact (h.blocked queue p hp).1.symm
      · rw [AList.lookup_insert_ne hib, AList.lookup_erase_ne hne]
    · cases hn
      exact ⟨tracked_left hmachine hw hl hdone hb fun i hne => AList.lookup_erase_ne hne, rfl, rfl⟩

/-- What the applier holds may change while no client is inside `append`. -/
theorem tracked_applying {n : TrackedNode} (h : Tracked known n) (hw : n.writing = none)
    {applying : Option Applying}
    (ha : ∀ a, applying = some a → a.commitIndex ≤ n.journal.commitIndex) :
    Tracked known { n with applying } := by
  refine ⟨h.good, h.applied_le, h.seen_le, h.blocked, h.ordered, h.applied,
    fun hh => absurd hw hh, fun w hw' => (not_some_of_none hw hw').elim, fun r hr => ?_, ha,
    h.known_committed⟩
  have hs := h.receiving_sound r hr
  cases r <;> exact hs

/-! ## Whole runs -/

/-- One step of one thread. -/
theorem tracked_next {n n' : TrackedNode} (h : Tracked known n) {x : TrackStep}
    (hn : n.next x = some n') : Tracked known n' := by
  cases x with
  | detach queue =>
    cases hn
    exact tracked_setQueue h rfl
  | response queue raw =>
    obtain ⟨q, hq, hn⟩ := Option.bind_eq_some_iff.mp hn
    cases hn
    exact tracked_setQueue h (writesOf_appendResponse (orDie_some hq))
  | read queue tx =>
    simp only [next] at hn
    split_ifs at hn
    · cases hn
      exact h
    · obtain ⟨q, hq, hn⟩ := Option.bind_eq_some_iff.mp hn
      cases hn
      refine tracked_setQueue h ?_
      rcases addPendingTransaction_cases (orDie_some hq) with ⟨-, hw⟩ | hw
      · exact hw
      · rw [hw, if_neg (by omega)]
  | append queue index term tx =>
    simp only [next] at hn
    split_ifs at hn with hfree
    · obtain ⟨hr, hm⟩ := hfree
      obtain ⟨ok, hok, hn⟩ := Option.bind_eq_some_iff.mp hn
      split_ifs at hn with hb
      · cases hn
        subst hb
        exact tracked_append h (raftCommandFree_iff.mp hr).2 (mtxFree_iff.mp hm).2 (orDie_some hok)
      · cases hn
        exact h
    · cases hn
      exact h
  | insertBlocked =>
    simp only [next] at hn
    split at hn
    · rename_i queue index tx hw
      cases hn
      exact tracked_insertBlocked h hw
    · cases hn
      exact h
  | addPending =>
    simp only [next] at hn
    split at hn
    · rename_i queue index tx hw
      obtain ⟨q, hq, hn⟩ := Option.bind_eq_some_iff.mp hn
      cases hn
      exact tracked_addPending h hw (orDie_some hq)
    · cases hn
      exact h
  | beginReceive req =>
    simp only [next] at hn
    split_ifs at hn with hfree
    · cases hn
      refine tracked_phase h (raftCommandFree_iff.mp hfree).1 ?_
      rintro r ⟨⟩
      exact True.intro
    · cases hn
      exact h
  | receive =>
    simp only [next] at hn
    split at hn
    · rename_i phase hp
      exact tracked_receivePhase h hp hn
    · cases hn
      exact h
  | flushQueues =>
    simp only [next] at hn
    split_ifs at hn with hfree
    · cases hn
      exact tracked_flush h (mtxFree_iff.mp hfree).1
    · cases hn
      exact h
  | appendOwn index entry =>
    obtain ⟨b, -, hn⟩ := Option.bind_eq_some_iff.mp hn
    cases hn
    exact tracked_grows h (grows_append h.good index entry)
  | setCurrentTerm term vote =>
    obtain ⟨b, -, hn⟩ := Option.bind_eq_some_iff.mp hn
    cases hn
    exact tracked_grows h (grows_setCurrentTerm h.good term vote)
  | setCommitIndex index =>
    obtain ⟨b, -, hn⟩ := Option.bind_eq_some_iff.mp hn
    cases hn
    exact tracked_grows h (grows_setCommitIndex h.good index)
  | trimUntil newLogStart =>
    obtain ⟨b, -, hn⟩ := Option.bind_eq_some_iff.mp hn
    cases hn
    exact tracked_grows h (grows_trimUntil h.good newLogStart)
  | readCommitIndex =>
    cases hn
    exact { h with
      seen_le := le_refl _
      writing_sound := fun w hw => by have := h.writing_sound w hw; cases w <;> exact this
      receiving_sound := fun r hr => by have := h.receiving_sound r hr; cases r <;> exact this }
  | beginApply =>
    simp only [next] at hn
    split_ifs at hn with hfree
    · cases hn
      refine tracked_applying h (mtxFree_iff.mp hfree).1 ?_
      rintro a ⟨⟩
      exact h.seen_le
    · cases hn
      exact h
  | applySingleCommit =>
    simp only [next] at hn
    split at hn
    · cases hn
      exact h
    · rename_i a ha
      have hw : n.writing = none := by
        by_contra hh
        exact not_some_of_none (h.one_holds hh).2 ha
      split_ifs at hn with hdone
      · cases hn
        exact tracked_applying h hw (by rintro b ⟨⟩)
      · obtain ⟨m, hm, hn⟩ := Option.bind_eq_some_iff.mp hn
        cases hn
        have hc := h.applying_le a ha
        obtain ⟨ht, hw', hj⟩ := tracked_applyIndex h hw (by omega) hm
        refine tracked_applying ht (hw'.trans hw) ?_
        rintro b ⟨⟩
        rw [hj]
        exact hc

theorem tracked_runAll {n n' : TrackedNode} (h : Tracked known n) {xs : List TrackStep}
    (hn : n.runAll xs = some n') : Tracked known n' := by
  induction xs generalizing n with
  | nil =>
    cases hn
    exact h
  | cons x xs ih =>
    obtain ⟨m, hm, hn⟩ := Option.bind_eq_some_iff.mp hn
    exact ih (tracked_next h hm) hn

theorem tracked_startOn {journal : RaftJournal} (h : RaftJournal.Good journal) {lastApplied : Int}
    (hl : lastApplied ≤ journal.commitIndex) :
    Tracked (fun _ => none) (startOn journal lastApplied) := by
  refine ⟨h, hl, le_refl _, ?_, ?_, ?_, fun hh => absurd rfl hh, ?_, ?_, ?_, ?_⟩
  · intro k p hp
    exact absurd hp List.not_mem_nil
  · intro k
    exact List.Pairwise.nil
  · intro i r hi
    exact absurd hi List.not_mem_nil
  · rintro w ⟨⟩
  · rintro r ⟨⟩
  · rintro a ⟨⟩
  · rintro i r ⟨⟩

/-- From now on it is known what is committed at an index. -/
theorem tracked_know {n : TrackedNode} (h : Tracked (fun _ => none) n) {index : Int} {e : RaftEntry}
    (hi : index ≤ n.journal.commitIndex) (he : n.journal.db.entries index = some e) :
    Tracked (fun i => if i = index then some e.request else none) n := by
  have hh : ∀ i r, Holds (fun _ => none) n.journal i r →
      Holds (fun i => if i = index then some e.request else none) n.journal i r := by
    intro i r hold
    refine ⟨hold.1, fun r' hr' => ?_⟩
    simp only at hr'
    split_ifs at hr' with hii
    cases hr'
    rw [hii] at hold
    exact (hold.1 e he).symm
  refine ⟨h.good, h.applied_le, h.seen_le, fun k p hp => ?_, h.ordered, fun i r hir => ?_,
    h.one_holds, fun w hw => ?_, h.receiving_sound, h.applying_le, fun i r hr => ?_⟩
  · obtain ⟨b1, b2, b3⟩ := h.blocked k p hp
    exact ⟨b1, b2, hh _ _ b3⟩
  · obtain ⟨a1, a2⟩ := h.applied i r hir
    exact ⟨a1, hh _ _ a2⟩
  · have hs := h.writing_sound w hw
    cases w with
    | appended queue i tx =>
      obtain ⟨h1, h2, h3, h4⟩ := hs
      exact ⟨h1, h2, hh _ _ h3, h4⟩
    | inserted queue i tx =>
      obtain ⟨h1, h2, h3, h4⟩ := hs
      exact ⟨h1, h2, hh _ _ h3, h4⟩
  · split_ifs at hr with hii
    cases hr
    rw [hii]
    refine ⟨hi, fun e' he' => ?_⟩
    rw [he] at he'
    cases he'
    rfl

/-- What is applied later at a committed index is the request that is stored there now. -/
theorem applied_is_committed {n n' : TrackedNode} (h : Tracked (fun _ => none) n)
    {xs : List TrackStep} (hn : n.runAll xs = some n') {i : Int} {e : RaftEntry}
    (hi : i ≤ n.journal.commitIndex) (he : n.journal.db.entries i = some e) {r : RedisRequest}
    (hr : (i, r) ∈ n'.machine.history) : r = e.request := by
  have h' := tracked_runAll (tracked_know h hi he) hn
  exact (h'.applied i r hr).2.2 e.request (by simp)

/-- In every run, whatever is applied at an index is the request that the journal
stored there when the index was committed, and only what is committed is applied. -/
theorem what_is_applied_is_what_was_journaled
    {clusterID : RaftClusterID} {nodes : List RaftServer} {startIndex : Int} {new : RaftJournal}
    (h0 : 0 ≤ startIndex) (hnew : RaftJournal.obliterate clusterID nodes startIndex = .ok new)
    (calls : List RaftJournal.JournalCall) {lastApplied : Int}
    (hl : lastApplied ≤ (new.afterAll calls).commitIndex) {before after : List TrackStep}
    {a b : TrackedNode} (ha : (startOn (new.afterAll calls) lastApplied).runAll before = some a)
    (hb : a.runAll after = some b) :
    (∀ i r, (i, r) ∈ b.machine.history → i ≤ b.journal.commitIndex) ∧
    ∀ i, a.journal.logStart ≤ i → i ≤ a.journal.commitIndex →
      ∃ e, a.journal.fetch i = some e ∧ ∀ r, (i, r) ∈ b.machine.history → r = e.request := by
  have hgood := RaftJournal.good_afterAll (RaftJournal.good_obliterate h0 hnew) calls
  have hta := tracked_runAll (tracked_startOn hgood hl) ha
  have htb := tracked_runAll hta hb
  refine ⟨fun i r hr => le_trans (htb.applied i r hr).1 htb.applied_le, fun i h1 h2 => ?_⟩
  have hlt := hta.good.commit_lt_size
  obtain ⟨e, he⟩ := Option.isSome_iff_exists.mp ((hta.good.stored i).mpr ⟨h1, by omega⟩)
  exact ⟨e, he, fun r hr => applied_is_committed hta hb h2 he hr⟩

/-- A write of a client. -/
def aWrite : Transaction :=
  { requests := [[ascii "SET", ascii "k", ascii "v"]], hasWrites := true, phantom := true
    checked := by decide +kernel, hasWrites_eq := by decide +kernel }

/-- A client's write is applied from its queue, and the marker of the next leader,
which overwrites nothing, from the journal. -/
theorem a_write_and_a_marker_are_applied :
    ∃ new a b, RaftJournal.obliterate (ascii "id") [⟨ascii "s1", 7776⟩] 0 = .ok new ∧
      (startOn new 0).runAll [.append 0 1 0 aWrite, .insertBlocked, .addPending, .setCommitIndex 1]
        = some a ∧
      a.runAll [.readCommitIndex, .beginApply, .applySingleCommit, .applySingleCommit,
        .appendOwn 2 (leadershipMarker 0 ⟨ascii "s1", 7776⟩), .setCommitIndex 2, .readCommitIndex,
        .beginApply, .applySingleCommit] = some b ∧
      b.machine.history = [(1, aWrite.toRedisRequest),
        (2, (leadershipMarker 0 ⟨ascii "s1", 7776⟩).request)] ∧
      ∃ e, a.journal.fetch 1 = some e ∧ ∀ r, (1, r) ∈ b.machine.history → r = e.request := by
  obtain ⟨new, a, b, hnew, ha, hb, hh, hl, hs, hc⟩ : ∃ new a b,
      RaftJournal.obliterate (ascii "id") [⟨ascii "s1", 7776⟩] 0 = .ok new ∧
      (startOn new 0).runAll [.append 0 1 0 aWrite, .insertBlocked, .addPending, .setCommitIndex 1]
        = some a ∧
      a.runAll [.readCommitIndex, .beginApply, .applySingleCommit, .applySingleCommit,
        .appendOwn 2 (leadershipMarker 0 ⟨ascii "s1", 7776⟩), .setCommitIndex 2, .readCommitIndex,
        .beginApply, .applySingleCommit] = some b ∧
      b.machine.history = [(1, aWrite.toRedisRequest),
        (2, (leadershipMarker 0 ⟨ascii "s1", 7776⟩).request)] ∧
      0 ≤ (new.afterAll []).commitIndex ∧ a.journal.logStart ≤ 1 ∧ 1 ≤ a.journal.commitIndex :=
    ⟨_, _, _, rfl, rfl, rfl, rfl, by decide, by decide, by decide⟩
  refine ⟨new, a, b, hnew, ha, hb, hh, ?_⟩
  exact (what_is_applied_is_what_was_journaled (le_refl 0) hnew [] hl ha hb).2 1 hs hc

end TrackedNode

end quarkdb
