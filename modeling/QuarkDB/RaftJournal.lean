-- The journal of a raft node: the counters it keeps in memory, the same
-- counters and the entries on disk, and every call that changes them. A call
-- that throws keeps what it had done before the throw.
import QuarkDB.RaftCommon

namespace quarkdb

/-! ## The disk -/

/-- What the rocksdb database of a journal holds. The previous members are there
only after a membership update. -/
structure JournalDB where
  currentTerm : Int
  logSize : Int
  logStart : Int
  clusterID : RaftClusterID
  votedFor : Bytes
  commitIndex : Int
  members : Bytes
  membershipEpoch : Int
  previousMembers : Option Bytes
  previousMembershipEpoch : Option Int
  entries : Int → Option RaftEntry

/-- One update of a write batch. -/
inductive JournalWrite
  | currentTerm (term : Int)
  | votedFor (vote : Bytes)
  | logSize (size : Int)
  | logStart (start : Int)
  | commitIndex (index : Int)
  | members (members : Bytes)
  | membershipEpoch (epoch : Int)
  | previousMembers (members : Bytes)
  | previousMembershipEpoch (epoch : Int)
  | putEntry (index : Int) (entry : RaftEntry)
  | deleteEntry (index : Int)

namespace JournalDB

def put (db : JournalDB) : JournalWrite → JournalDB
  | .currentTerm term => { db with currentTerm := term }
  | .votedFor vote => { db with votedFor := vote }
  | .logSize size => { db with logSize := size }
  | .logStart start => { db with logStart := start }
  | .commitIndex index => { db with commitIndex := index }
  | .members members => { db with members := members }
  | .membershipEpoch epoch => { db with membershipEpoch := epoch }
  | .previousMembers members => { db with previousMembers := some members }
  | .previousMembershipEpoch epoch => { db with previousMembershipEpoch := some epoch }
  | .putEntry index entry =>
    { db with entries := fun i => if i = index then some entry else db.entries i }
  | .deleteEntry index => { db with entries := fun i => if i = index then none else db.entries i }

/-- `db->Write`: the updates of a batch, in order and all at once. -/
def write (db : JournalDB) (batch : List JournalWrite) : JournalDB := batch.foldl put db

end JournalDB

/-- The deletions of the entries in `[first, last)`. -/
def deleteRange (first last : Int) : List JournalWrite :=
  (List.range (last - first).toNat).map fun (k : Nat) => .deleteEntry (first + k)

/-! ## The journal -/

structure RaftJournal where
  db : JournalDB
  currentTerm : Int
  logSize : Int
  logStart : Int
  clusterID : RaftClusterID
  commitIndex : Int
  votedFor : RaftServer
  termOfLastEntry : Int
  membershipEpoch : Int
  members : RaftMembers

/-- A call on the journal. -/
abbrev JournalM := Call RaftJournal

namespace RaftJournal

def fetch (j : RaftJournal) (index : Int) : Option RaftEntry := j.db.entries index

/-- `fetch_or_die`, for the whole entry. -/
def fetchOrDie (j : RaftJournal) (index : Int) : Except Fault RaftEntry :=
  match j.fetch index with
  | some entry => .ok entry
  | none => .error (.thrown "unable to fetch entry with index ")

/-- `initialize`: the journal that is opened from a disk. -/
def initializeJournal (db : JournalDB) : Except Fault RaftJournal := do
  let last ←
    match db.entries (db.logSize - 1) with
    | some entry => pure entry
    | none => throw (.thrown "unable to fetch entry with index ")
  let members ← RaftMembers.ofBytes db.members
  let votedFor ←
    match parseVote db.votedFor with
    | some vote => pure vote
    | none => throw (.thrown "journal corruption, cannot parse RAFT_VOTED_FOR: ")
  return {
    db
    currentTerm := db.currentTerm
    logSize := db.logSize
    logStart := db.logStart
    clusterID := db.clusterID
    commitIndex := db.commitIndex
    votedFor
    termOfLastEntry := last.term
    membershipEpoch := db.membershipEpoch
    members }

/-- `obliterate`: what is left on disk, and the journal opened from it. -/
def obliterate (newClusterID : RaftClusterID) (newNodes : List RaftServer)
    (startIndex : Int) : Except Fault RaftJournal :=
  let newMembers : RaftMembers := { nodes := newNodes, observers := [] }
  initializeJournal {
    currentTerm := 0
    logSize := startIndex + 1
    logStart := startIndex
    clusterID := newClusterID
    votedFor := []
    commitIndex := startIndex
    members := newMembers.toBytes
    membershipEpoch := startIndex
    previousMembers := none
    previousMembershipEpoch := none
    entries := fun i =>
      if i = startIndex then some (updateMembersEntry 0 newMembers newClusterID) else none }

/-- `commitBatch`, where a negative index leaves the size of the log as it is. -/
def commitBatch (batch : List JournalWrite) (index : Int) : JournalM Unit := do
  let j ← get
  if 0 ≤ index ∧ index ≤ j.commitIndex then
    throw (.thrown "Attempted to remove committed entries by setting logSize to ")
  let batch := if 0 ≤ index ∧ index ≠ j.logSize then batch ++ [.logSize index] else batch
  set { j with
    db := j.db.write batch
    logSize := if 0 ≤ index then index else j.logSize }

def setCurrentTerm (term : Int) (vote : RaftServer) : JournalM Bool := do
  let j ← get
  -- Terms should never go back in time.
  if term < j.currentTerm then return false
  -- The vote for the current term should never change.
  if term = j.currentTerm ∧ ¬ j.votedFor.empty then return false
  commitBatch [.currentTerm term, .votedFor vote.toBytes] (-1)
  modify fun j => { j with currentTerm := term, votedFor := vote }
  return true

def setCommitIndex (newIndex : Int) : JournalM Bool := do
  let j ← get
  if newIndex < j.commitIndex then return false
  if j.logSize ≤ newIndex then
    throw (.thrown "attempted to mark as committed a non-existing entry. Journal size: ")
  if j.commitIndex < newIndex then
    set { j with db := j.db.put (.commitIndex newIndex), commitIndex := newIndex }
  return true

/-- The request asks for a change of members. -/
def isMembersUpdate (request : RedisRequest) : Bool :=
  request.head? = some (ascii "JOURNAL_UPDATE_MEMBERS")

/-- The updates that a membership entry adds to the batch of its append. The
members take effect at once; those of another cluster are ignored. -/
def takeMembers (index : Int) (request : RedisRequest) : JournalM (List JournalWrite) := do
  let j ← get
  match request with
  | [_, newMembers, clusterID] =>
    if clusterID = j.clusterID then
      let members ← (RaftMembers.ofBytes newMembers : Except Fault RaftMembers)
      set { j with members := members, membershipEpoch := index }
      return [.members newMembers, .membershipEpoch index, .previousMembers j.members.toBytes,
        .previousMembershipEpoch j.membershipEpoch]
    return []
  | _ => throw (.thrown "Journal corruption, invalid journal_update_members: ")

def appendNoLock (index : Int) (entry : RaftEntry) : JournalM Bool := do
  let j ← get
  if index ≠ j.logSize then return false
  if j.currentTerm < entry.term then return false
  if entry.term < j.termOfLastEntry then return false
  if entry.request = [] then throw .outOfBounds
  let batch ← if isMembersUpdate entry.request then takeMembers index entry.request else pure []
  commitBatch (batch ++ [.putEntry index entry]) (index + 1)
  modify fun j => { j with termOfLastEntry := entry.term }
  return true

def append (index : Int) (entry : RaftEntry) : JournalM Bool := appendNoLock index entry

def appendLeadershipMarker (index : Int) (term : Int) (leader : RaftServer) :
    JournalM Bool :=
  append index (leadershipMarker term leader)

/-- The error text of a refused membership update comes with the refusal. -/
def membershipUpdate (term : Int) (newMembers : RaftMembers) : JournalM (Bool × Bytes) := do
  let j ← get
  if j.commitIndex < j.membershipEpoch then
    return (false, ascii "the current membership epoch has not been committed yet: " ++
      decimal j.membershipEpoch)
  let appended ← appendNoLock j.logSize (updateMembersEntry term newMembers j.clusterID)
  return (appended, [])

/-- What the four calls below share: change the members, then update. -/
def updateWith (change : RaftMembers → Except Bytes RaftMembers) (term : Int) :
    JournalM (Bool × Bytes) := do
  let j ← get
  match change j.members with
  | .error err => return (false, err)
  | .ok newMembers => membershipUpdate term newMembers

def addObserver (term : Int) (observer : RaftServer) : JournalM (Bool × Bytes) :=
  updateWith (fun m => m.addObserver observer) term

def removeMember (term : Int) (member : RaftServer) : JournalM (Bool × Bytes) :=
  updateWith (fun m => m.removeMember member) term

def promoteObserver (term : Int) (observer : RaftServer) : JournalM (Bool × Bytes) :=
  updateWith (fun m => m.promoteObserver observer) term

def demoteToObserver (term : Int) (member : RaftServer) : JournalM (Bool × Bytes) :=
  updateWith (fun m => m.demoteToObserver member) term

def trimUntil (newLogStart : Int) : JournalM Unit := do
  let j ← get
  if newLogStart ≤ j.logStart then return
  if j.logSize < newLogStart then
    throw (.thrown "attempted to trim a journal past its end. logSize: ")
  if j.commitIndex < newLogStart then
    throw (.thrown "attempted to trim non-committed entries. commitIndex: ")
  commitBatch (deleteRange j.logStart newLogStart ++ [.logStart newLogStart]) (-1)
  modify fun j => { j with logStart := newLogStart }

/-- `get_or_die`. -/
def getOrDie {α : Type} (value : Option α) : Except Fault α :=
  match value with
  | some v => .ok v
  | none => .error (.thrown "error when getting journal key ")

/-- Roll back an uncommitted membership epoch: the updates it adds to the batch. -/
def rollbackMembers : JournalM (List JournalWrite) := do
  let j ← get
  let previousMembershipEpoch ← (getOrDie j.db.previousMembershipEpoch : Except Fault Int)
  let previousMembers ← (getOrDie j.db.previousMembers : Except Fault Bytes)
  let members ← (RaftMembers.ofBytes previousMembers : Except Fault RaftMembers)
  set { j with members := members, membershipEpoch := previousMembershipEpoch }
  return [.membershipEpoch previousMembershipEpoch, .members previousMembers]

def removeEntries (first : Int) : JournalM Bool := do
  let j ← get
  if j.logSize ≤ first then return false
  if first ≤ j.commitIndex then
    throw (.thrown "attempted to remove committed entries. commitIndex: ")
  let batch ← if first ≤ j.membershipEpoch then rollbackMembers else pure []
  commitBatch (deleteRange first j.logSize ++ batch) first
  let j ← get
  let last ← (j.fetchOrDie (first - 1) : Except Fault RaftEntry)
  set { j with termOfLastEntry := last.term }
  return true

/-- The first index at which the journal differs from `entries`, which start at
`start`: entries that are trimmed are taken to be equal. The count is what is
left to compare. -/
def compareLoop (j : RaftJournal) (start : Int) (entries : List RaftEntry) (i : Int) :
    Nat → Except Fault Int
  | 0 => .ok i
  | n + 1 => do
    let entry ← j.fetchOrDie i
    if entries[(i - start).toNat]? ≠ some entry then return i
    compareLoop j start entries (i + 1) n

def compareEntries (j : RaftJournal) (start : Int) (entries : List RaftEntry) :
    Except Fault Int :=
  let endIndex := min j.logSize (start + entries.length)
  let startIndex := max start j.logStart
  -- With nothing to compare the loop does not run, and the end is returned.
  if endIndex ≤ startIndex then .ok endIndex
  else compareLoop j start entries startIndex (endIndex - startIndex).toNat

def matchEntries (j : RaftJournal) (index : Int) (term : Int) : Bool :=
  if j.logSize ≤ index then false
  else
    match j.fetch index with
    | some entry => entry.term = term
    | none => false

/-! ## What each call does -/

theorem write_append (db : JournalDB) (a b : List JournalWrite) :
    db.write (a ++ b) = (db.write a).write b := by
  simp [JournalDB.write]

theorem write_deleteRange (db : JournalDB) (first last : Int) :
    db.write (deleteRange first last) =
      { db with entries := fun i => if first ≤ i ∧ i < last then none else db.entries i } := by
  have h : ∀ n : Nat, db.write ((List.range n).map fun (k : Nat) => .deleteEntry (first + k)) =
      { db with entries := fun i => if first ≤ i ∧ i < first + n then none else db.entries i } := by
    intro n
    induction n with
    | zero =>
      have hz : ∀ i, ¬ (first ≤ i ∧ i < first + (0 : Nat)) := by intro i; omega
      simp only [hz, if_false]
      rfl
    | succ n ih =>
      rw [List.range_succ, List.map_append, write_append, ih]
      simp only [JournalDB.write, List.map_cons, List.map_nil, List.foldl_cons, List.foldl_nil,
        JournalDB.put, JournalDB.mk.injEq, true_and]
      funext i
      by_cases hi : i = first + n
      · have : first ≤ i ∧ i < first + (n + 1 : Nat) := by omega
        simp only [hi, if_true, if_pos (hi ▸ this)]
      · have : (first ≤ i ∧ i < first + (n + 1 : Nat)) ↔ (first ≤ i ∧ i < first + n) := by omega
        simp only [hi, if_false, this]
  rw [deleteRange, h]
  congr 1
  funext i
  have : (first ≤ i ∧ i < first + ((last - first).toNat : Int)) ↔ (first ≤ i ∧ i < last) := by omega
  simp only [this]

theorem commitBatch_on (batch : List JournalWrite) (index : Int) (j : RaftJournal) :
    (commitBatch batch index).on j =
      if 0 ≤ index ∧ index ≤ j.commitIndex then
        (.error (.thrown "Attempted to remove committed entries by setting logSize to "), j)
      else (.ok (), { j with
        db := j.db.write
          (if 0 ≤ index ∧ index ≠ j.logSize then batch ++ [.logSize index] else batch)
        logSize := if 0 ≤ index then index else j.logSize }) := by
  unfold commitBatch
  simp only [Call.on_bind, Call.on_get, Call.on_ite, Call.on_throw,
    Call.on_set]

theorem setCurrentTerm_on (term : Int) (vote : RaftServer) (j : RaftJournal) :
    (setCurrentTerm term vote).on j =
      if term < j.currentTerm ∨ (term = j.currentTerm ∧ j.votedFor.empty = false) then
        (.ok false, j)
      else (.ok true, { j with
        db := { j.db with currentTerm := term, votedFor := vote.toBytes }
        currentTerm := term
        votedFor := vote }) := by
  unfold setCurrentTerm
  by_cases h1 : term < j.currentTerm
  · simp [h1]
  · by_cases h2 : term = j.currentTerm ∧ j.votedFor.empty = false
    · simp [h2]
    · simp [h1, h2, commitBatch_on, JournalDB.write, JournalDB.put, Except.map]

theorem setCommitIndex_on (newIndex : Int) (j : RaftJournal) :
    (setCommitIndex newIndex).on j =
      if newIndex < j.commitIndex then (.ok false, j)
      else if j.logSize ≤ newIndex then
        (.error (.thrown "attempted to mark as committed a non-existing entry. Journal size: "), j)
      else if j.commitIndex < newIndex then
        (.ok true, { j with
          db := { j.db with commitIndex := newIndex }, commitIndex := newIndex })
      else (.ok true, j) := by
  unfold setCommitIndex
  by_cases h1 : newIndex < j.commitIndex
  · simp [h1]
  · by_cases h2 : j.logSize ≤ newIndex
    · simp [h1, h2]
    · by_cases h3 : j.commitIndex < newIndex <;> simp [h1, h2, h3, JournalDB.put, Except.map]

theorem trimUntil_on (newLogStart : Int) (j : RaftJournal) :
    (trimUntil newLogStart).on j =
      if newLogStart ≤ j.logStart then (.ok (), j)
      else if j.logSize < newLogStart then
        (.error (.thrown "attempted to trim a journal past its end. logSize: "), j)
      else if j.commitIndex < newLogStart then
        (.error (.thrown "attempted to trim non-committed entries. commitIndex: "), j)
      else (.ok (), { j with
        db := { j.db with
          entries := fun i => if j.logStart ≤ i ∧ i < newLogStart then none else j.db.entries i
          logStart := newLogStart }
        logStart := newLogStart }) := by
  unfold trimUntil
  by_cases h1 : newLogStart ≤ j.logStart
  · simp [h1]
  · by_cases h2 : j.logSize < newLogStart
    · simp [h1, h2]
    · by_cases h3 : j.commitIndex < newLogStart
      · simp [h1, h2, h3]
      · simp [h1, h2, h3, commitBatch_on, write_append, write_deleteRange]
        simp [JournalDB.write, JournalDB.put]

/-- The members in effect after a membership entry at `index`. -/
def withMembers (j : RaftJournal) (index : Int) (serialized : Bytes) (members : RaftMembers) :
    RaftJournal :=
  { j with
    db := { j.db with
      members := serialized
      membershipEpoch := index
      previousMembers := some j.members.toBytes
      previousMembershipEpoch := some j.membershipEpoch }
    members := members
    membershipEpoch := index }

/-- The journal with one entry more. -/
def withEntry (j : RaftJournal) (entry : RaftEntry) : RaftJournal :=
  { j with
    db := { j.db with
      entries := fun i => if i = j.logSize then some entry else j.db.entries i
      logSize := j.logSize + 1 }
    logSize := j.logSize + 1
    termOfLastEntry := entry.term }

theorem withEntry_entries (j : RaftJournal) (entry : RaftEntry) (i : Int) :
    (j.withEntry entry).db.entries i = if i = j.logSize then some entry else j.db.entries i := rfl

/-- What an accepted request does to the members before its entry is stored. -/
inductive Takes (j : RaftJournal) (request : RedisRequest) : RaftJournal → Prop
  | other (h : isMembersUpdate request = false) : Takes j request j
  | foreign {head members clusterID : Bytes} (h : request = [head, members, clusterID])
      (hu : isMembersUpdate request = true) (hc : clusterID ≠ j.clusterID) : Takes j request j
  | members {head serialized : Bytes} {members : RaftMembers}
      (h : request = [head, serialized, j.clusterID]) (hu : isMembersUpdate request = true)
      (hp : RaftMembers.parse serialized = some members) :
      Takes j request (j.withMembers j.logSize serialized members)

theorem takeMembers_on {j : RaftJournal} {request : RedisRequest}
    (hu : isMembersUpdate request = true) :
    (∃ e, (takeMembers j.logSize request).on j = (.error e, j)) ∨
    (Takes j request j ∧ (takeMembers j.logSize request).on j = (.ok [], j)) ∨
    ∃ serialized members, Takes j request (j.withMembers j.logSize serialized members) ∧
      (takeMembers j.logSize request).on j =
        (.ok [.members serialized, .membershipEpoch j.logSize, .previousMembers j.members.toBytes,
          .previousMembershipEpoch j.membershipEpoch],
        { j with members := members, membershipEpoch := j.logSize }) := by
  unfold takeMembers
  simp only [Call.on_bind, Call.on_get]
  split
  · rename_i head serialized clusterID
    by_cases hc : clusterID = j.clusterID
    · subst hc
      cases hp : RaftMembers.parse serialized with
      | none => exact .inl ⟨_, by simp [RaftMembers.ofBytes, hp]; rfl⟩
      | some m =>
        refine .inr (.inr ⟨serialized, m, .members rfl hu hp, ?_⟩)
        simp [RaftMembers.ofBytes, hp, Except.map]
    · exact .inr (.inl ⟨.foreign rfl hu hc, by simp [hc]⟩)
  · exact .inl ⟨_, rfl⟩

/-- An entry that is not about members is stored when its term lies between that
of the last entry and the current one. -/
theorem appendNoLock_other {j : RaftJournal} (hc : j.commitIndex < j.logSize)
    (h0 : 0 ≤ j.logSize) {entry : RaftEntry} (ht : entry.term ≤ j.currentTerm)
    (hl : j.termOfLastEntry ≤ entry.term) (hr : entry.request ≠ [])
    (hm : isMembersUpdate entry.request = false) :
    (appendNoLock j.logSize entry).on j = (.ok true, j.withEntry entry) := by
  have h2 : ¬ j.currentTerm < entry.term := by omega
  have h3 : ¬ entry.term < j.termOfLastEntry := by omega
  have hb : ¬ j.logSize + 1 ≤ j.commitIndex := by omega
  have hs : 0 ≤ j.logSize + 1 := by omega
  have hne : j.logSize + 1 ≠ j.logSize := by omega
  unfold appendNoLock
  simp [h2, h3, hr, hm, commitBatch_on, hb, hs, hne, Except.map, withEntry, JournalDB.write,
    JournalDB.put]

/-- An append leaves the journal as it is, or stores the entry at the end of it. -/
theorem appendNoLock_cases {j : RaftJournal} (hc : j.commitIndex < j.logSize)
    (h0 : 0 ≤ j.logSize) (index : Int) (entry : RaftEntry) :
    (∃ r, (appendNoLock index entry).on j = (r, j) ∧ r ≠ .ok true) ∨
    (index = j.logSize ∧ entry.term ≤ j.currentTerm ∧ j.termOfLastEntry ≤ entry.term ∧
      ∃ j', Takes j entry.request j' ∧
        (appendNoLock index entry).on j = (.ok true, j'.withEntry entry)) := by
  unfold appendNoLock
  by_cases h1 : index ≠ j.logSize
  · exact .inl ⟨.ok false, by simp [h1], by simp⟩
  by_cases h2 : j.currentTerm < entry.term
  · exact .inl ⟨.ok false, by simp [h2], by simp⟩
  by_cases h3 : entry.term < j.termOfLastEntry
  · exact .inl ⟨.ok false, by simp [h2, h3], by simp⟩
  by_cases h4 : entry.request = []
  · exact .inl ⟨.error .outOfBounds, by simp [h1, h2, h3, h4], by simp⟩
  obtain rfl : index = j.logSize := not_not.mp h1
  have hb : ¬ j.logSize + 1 ≤ j.commitIndex := by omega
  have hs : 0 ≤ j.logSize + 1 := by omega
  have hne : j.logSize + 1 ≠ j.logSize := by omega
  by_cases hu : isMembersUpdate entry.request = true
  · rcases takeMembers_on (j := j) hu with ⟨e, he⟩ | ⟨ht, he⟩ | ⟨serialized, members, ht, he⟩
    · exact .inl ⟨.error e, by simp [h2, h3, h4, hu, he], by simp⟩
    · refine .inr ⟨rfl, by omega, by omega, _, ht, ?_⟩
      simp [h2, h3, h4, hu, he, commitBatch_on, hb, hs, hne, Except.map, withEntry,
        JournalDB.write, JournalDB.put]
    · refine .inr ⟨rfl, by omega, by omega, _, ht, ?_⟩
      simp [h2, h3, h4, hu, he, commitBatch_on, hb, hs, hne, Except.map, withEntry, withMembers,
        JournalDB.write, JournalDB.put]
      rfl
  · have hu : isMembersUpdate entry.request = false := by simpa using hu
    refine .inr ⟨rfl, by omega, by omega, j, .other hu, ?_⟩
    exact appendNoLock_other hc h0 (by omega) (by omega) h4 hu

/-- The journal without its entries from `first` on. -/
def withoutEntries (j : RaftJournal) (first : Int) (lastTerm : Int) : RaftJournal :=
  { j with
    db := { j.db with
      entries := fun i => if first ≤ i ∧ i < j.logSize then none else j.db.entries i
      logSize := first }
    logSize := first
    termOfLastEntry := lastTerm }

theorem withoutEntries_entries (j : RaftJournal) (first lastTerm i : Int) :
    (j.withoutEntries first lastTerm).db.entries i =
      if first ≤ i ∧ i < j.logSize then none else j.db.entries i := rfl

/-- What removing the entries from `first` on does to the members. -/
inductive RollsBack (j : RaftJournal) (first : Int) : RaftJournal → Prop
  | keep (h : j.membershipEpoch < first) : RollsBack j first j
  | back {epoch : Int} {serialized : Bytes} {members : RaftMembers}
      (h : first ≤ j.membershipEpoch) (he : j.db.previousMembershipEpoch = some epoch)
      (hm : j.db.previousMembers = some serialized)
      (hp : RaftMembers.parse serialized = some members) :
      RollsBack j first { j with
        db := { j.db with membershipEpoch := epoch, members := serialized }
        members := members
        membershipEpoch := epoch }

/-- A removal leaves the journal as it is, or cuts it at an index that is not
committed. -/
theorem removeEntries_cases {j : RaftJournal} (h0 : 0 ≤ j.commitIndex) (first : Int)
    (hs : ∀ i, j.commitIndex ≤ i → i < j.logSize → (j.db.entries i).isSome) :
    (∃ r, (removeEntries first).on j = (r, j) ∧ r ≠ .ok true ∧ (r = .ok false → j.logSize ≤ first)) ∨
    (j.commitIndex < first ∧ first < j.logSize ∧
      ∃ j' entry, RollsBack j first j' ∧ j.db.entries (first - 1) = some entry ∧
        (removeEntries first).on j = (.ok true, j'.withoutEntries first entry.term)) := by
  unfold removeEntries
  by_cases h1 : j.logSize ≤ first
  · exact .inl ⟨.ok false, by simp [h1], by simp, fun _ => h1⟩
  by_cases h2 : first ≤ j.commitIndex
  · exact .inl ⟨.error _, by simp [h1, h2]; rfl, by simp, nofun⟩
  obtain ⟨entry, hentry⟩ := Option.isSome_iff_exists.mp (hs (first - 1) (by omega) (by omega))
  have hf : 0 ≤ first := by omega
  have hne : first ≠ j.logSize := by omega
  have hlt : ¬ first ≤ first - 1 := by omega
  by_cases h3 : first ≤ j.membershipEpoch
  · cases he : j.db.previousMembershipEpoch with
    | none =>
      exact .inl ⟨.error _, by simp [h1, h2, h3, rollbackMembers, getOrDie, he]; rfl, by simp, nofun⟩
    | some epoch =>
      cases hm : j.db.previousMembers with
      | none =>
        exact .inl ⟨.error _, by simp [h1, h2, h3, rollbackMembers, getOrDie, he, hm]; rfl, by simp,
          nofun⟩
      | some serialized =>
        cases hp : RaftMembers.parse serialized with
        | none =>
          exact .inl ⟨.error _, by
            simp [h1, h2, h3, rollbackMembers, getOrDie, he, hm, RaftMembers.ofBytes, hp]; rfl,
            by simp, nofun⟩
        | some members =>
          refine .inr ⟨by omega, by omega, _, entry, .back h3 he hm hp, hentry, ?_⟩
          simp [h1, h2, h3, rollbackMembers, getOrDie, he, hm, RaftMembers.ofBytes, hp,
            commitBatch_on, hf, hne, write_append, write_deleteRange, withoutEntries, Except.map]
          simp [JournalDB.write, JournalDB.put, fetchOrDie, fetch, hentry, hlt]
  · refine .inr ⟨by omega, by omega, j, entry, .keep (by omega), hentry, ?_⟩
    simp [h1, h2, h3, commitBatch_on, hf, hne, write_append, write_deleteRange, withoutEntries,
      Except.map]
    simp [JournalDB.write, JournalDB.put, fetchOrDie, fetch, hentry, hlt]

end RaftJournal

end quarkdb
