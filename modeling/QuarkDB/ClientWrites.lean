-- A write of a client at a leader: the state is read first, and the entry is
-- appended later, with the term that was read. In between the term may move
-- on, and the journal takes the entry all the same, unless an entry of a newer
-- term is there already.
import QuarkDB.RaftDispatcher

namespace quarkdb
namespace ClientWrites

open RaftState (Sound Kept Later)

/-! ## Runs with client writes -/

/-- A node, the index its state machine has applied up to, and the snapshots
that the writes of its clients hold. -/
structure ServingNode where
  state : RaftState
  lastApplied : Int
  held : Nat → Option RaftStateSnapshot

/-- What can happen at the node: a step of a client's write, a request of another
node, a call on the state, or progress of the commit index and the state machine. -/
inductive ServeStep
  /-- `service` reads the state for a client's write, and goes on only as leader. -/
  | readSnapshot (client : Nat)
  /-- `writeTracker.append` with the term that was read. -/
  | append (client : Nat) (request : RedisRequest)
  | requestVote (req : RaftVoteRequest) (preVote : Bool)
  | appendEntries (req : RaftAppendEntriesRequest)
  | heartbeat (req : RaftHeartbeatRequest)
  | call (c : RaftState.StateCall)
  | setCommitIndex (index : Int)
  | apply

/-- The journal part of `writeTracker.append`: the entry goes to the end of the
journal, with the term of the snapshot. -/
def trackerAppend (state : RaftState) (snapshot : RaftStateSnapshot) (request : RedisRequest) :
    Except Fault Bool × RaftJournal :=
  (RaftJournal.append state.journal.logSize { term := snapshot.term, request }).on state.journal

def setHeld (held : Nat → Option RaftStateSnapshot) (client : Nat)
    (snapshot : Option RaftStateSnapshot) : Nat → Option RaftStateSnapshot :=
  fun c => if c = client then snapshot else held c

/-- The snapshot with which a client's write is ready to be appended: the state
machine has caught up with the marker of the leader. -/
def ready (n : ServingNode) (client : Nat) : Option RaftStateSnapshot :=
  match n.held client with
  | some snapshot => if snapshot.leadershipMarker ≤ n.lastApplied then some snapshot else none
  | none => none

def serve (n : ServingNode) : ServeStep → ServingNode
  | .readSnapshot client =>
    if n.state.getSnapshot.status = .LEADER then
      { n with held := setHeld n.held client (some n.state.getSnapshot) }
    else { n with held := setHeld n.held client none }
  | .append client request =>
    match ready n client with
    | none => n
    | some snapshot =>
      { n with
        state := { n.state with journal := (trackerAppend n.state snapshot request).2 }
        held := setHeld n.held client none }
  | .requestVote req preVote =>
    { n with state := (RaftDispatcher.requestVote n.state req preVote).2 }
  | .appendEntries req =>
    { n with state := ((RaftDispatcher.appendEntries n.lastApplied req).on n.state).2 }
  | .heartbeat req => { n with state := ((RaftDispatcher.heartbeat req).on n.state).2 }
  | .call c => { n with state := (n.state.perform c).2 }
  | .setCommitIndex index =>
    { n with state := { n.state with journal := n.state.journal.after (.setCommitIndex index) } }
  | .apply =>
    if n.lastApplied < n.state.journal.commitIndex then
      { n with lastApplied := n.lastApplied + 1 }
    else n

/-- A client entry that the journal took, and the term of the journal then. -/
structure Taken where
  term : Int
  currentTerm : Int
  deriving Repr, DecidableEq

/-- What the journal takes in one step. -/
def takenBy (n : ServingNode) : ServeStep → Option Taken
  | .append client request =>
    match ready n client with
    | none => none
    | some snapshot =>
      if (trackerAppend n.state snapshot request).1 = .ok true then
        some { term := snapshot.term, currentTerm := n.state.journal.currentTerm }
      else none
  | _ => none

def serveAll (n : ServingNode) : List ServeStep → ServingNode
  | [] => n
  | x :: xs => serveAll (serve n x) xs

/-- What the journal takes in a run. -/
def takenIn (n : ServingNode) : List ServeStep → List Taken
  | [] => []
  | x :: xs => (takenBy n x).toList ++ takenIn (serve n x) xs

/-- A node that just started, on a journal. -/
def startOn (journal : RaftJournal) (me : RaftServer) : ServingNode :=
  { state := RaftState.ofJournal journal me, lastApplied := journal.commitIndex,
    held := fun _ => none }

/-! ## When the journal rejects what is stale -/

/-- The term of the write has not moved on since it was read, or the journal
holds an entry of a newer term already. -/
def NotStale (n : ServingNode) : ServeStep → Prop
  | .append client _ =>
    ∀ snapshot, ready n client = some snapshot →
      snapshot.term = n.state.journal.currentTerm ∨
        snapshot.term < n.state.journal.termOfLastEntry
  | _ => True

/-- No append of the run is stale. -/
def NeverStale (n : ServingNode) : List ServeStep → Prop
  | [] => True
  | x :: xs => NotStale n x ∧ NeverStale (serve n x) xs

/-! ## The invariant -/

structure Serving (n : ServingNode) : Prop where
  sound : Sound n.state
  named : n.state.myself.empty = false
  held_le : ∀ c snapshot, n.held c = some snapshot → snapshot.term ≤ n.state.term

theorem ready_held {n : ServingNode} {client : Nat} {snapshot : RaftStateSnapshot}
    (h : ready n client = some snapshot) : n.held client = some snapshot := by
  unfold ready at h
  split at h
  · rename_i s hs
    split at h
    · cases h
      exact hs
    · cases h
  · cases h

theorem setHeld_le {held : Nat → Option RaftStateSnapshot} {term : Int} {client : Nat}
    {snapshot : Option RaftStateSnapshot}
    (h : ∀ c s, held c = some s → s.term ≤ term) (hs : ∀ s, snapshot = some s → s.term ≤ term) :
    ∀ c s, setHeld held client snapshot c = some s → s.term ≤ term := by
  intro c s hc
  unfold setHeld at hc
  split at hc
  · exact hs s hc
  · exact h c s hc

/-- A step that only changes the state keeps the invariant, and the term never
goes back. -/
theorem serving_of_kept {n : ServingNode} (h : Serving n) {state : RaftState}
    (hk : Kept n.state state) : Serving { n with state } := by
  refine ⟨hk.sound, by rw [← h.named, ← hk.later.myself], fun c s hs => ?_⟩
  exact le_trans (h.held_le c s hs) hk.later.term

theorem kept_trackerAppend {n : ServingNode} (h : Serving n) (snapshot : RaftStateSnapshot)
    (request : RedisRequest) :
    Kept n.state { n.state with journal := (trackerAppend n.state snapshot request).2 } := by
  obtain ⟨hg, -, hv⟩ := RaftJournal.good_appendNoLock h.sound.journal_good n.state.journal.logSize
    { term := snapshot.term, request } .reopen
  exact RaftDispatcher.kept_journal h.sound hg hv

/-- One step keeps the invariant, and the term never goes back. -/
theorem serving_serve {n : ServingNode} (h : Serving n) (x : ServeStep) :
    Serving (serve n x) ∧ n.state.term ≤ (serve n x).state.term := by
  cases x with
  | readSnapshot client =>
    simp only [serve]
    split
    · refine ⟨⟨h.sound, h.named, setHeld_le h.held_le ?_⟩, le_refl _⟩
      rintro s ⟨⟩
      exact le_refl _
    · refine ⟨⟨h.sound, h.named, setHeld_le h.held_le ?_⟩, le_refl _⟩
      rintro s ⟨⟩
  | append client request =>
    simp only [serve]
    cases hr : ready n client with
    | none => exact ⟨h, le_refl _⟩
    | some snapshot =>
      have hs := serving_of_kept h (kept_trackerAppend h snapshot request)
      refine ⟨⟨hs.sound, hs.named, setHeld_le hs.held_le ?_⟩, le_refl _⟩
      rintro s ⟨⟩
  | requestVote req preVote =>
    have hk := RaftDispatcher.kept_requestVote h.sound h.named req preVote
    exact ⟨serving_of_kept h hk, hk.later.term⟩
  | appendEntries req =>
    have hk := RaftDispatcher.kept_appendEntries h.sound h.named n.lastApplied req
    exact ⟨serving_of_kept h hk, hk.later.term⟩
  | heartbeat req =>
    have hk := RaftDispatcher.kept_heartbeat h.sound h.named req
    exact ⟨serving_of_kept h hk, hk.later.term⟩
  | call c =>
    have hk := RaftState.kept_perform h.sound h.named c
    exact ⟨serving_of_kept h hk, hk.later.term⟩
  | setCommitIndex index =>
    obtain ⟨hg, -, hv⟩ := RaftJournal.good_setCommitIndex h.sound.journal_good index .reopen
    have hk := RaftDispatcher.kept_journal h.sound hg hv
    exact ⟨serving_of_kept h hk, hk.later.term⟩
  | apply =>
    simp only [serve]
    split
    · exact ⟨⟨h.sound, h.named, h.held_le⟩, le_refl _⟩
    · exact ⟨h, le_refl _⟩

theorem serving_serveAll {n : ServingNode} (h : Serving n) (xs : List ServeStep) :
    Serving (serveAll n xs) ∧ n.state.term ≤ (serveAll n xs).state.term := by
  induction xs generalizing n with
  | nil => exact ⟨h, le_refl _⟩
  | cons x xs ih =>
    obtain ⟨h1, h2⟩ := serving_serve h x
    obtain ⟨i1, i2⟩ := ih h1
    exact ⟨i1, le_trans h2 i2⟩

theorem serving_startOn {journal : RaftJournal} (h : RaftJournal.Good journal) {me : RaftServer}
    (hme : me.empty = false) : Serving (startOn journal me) :=
  ⟨RaftState.sound_ofJournal h me, hme, fun c s hs => by cases hs⟩

/-! ## One append -/

/-- What the journal takes was not newer than its term, and not older than its
last entry. -/
theorem taken_terms {n : ServingNode} (h : Serving n) {x : ServeStep} {t : Taken}
    (ht : takenBy n x = some t) :
    t.currentTerm = n.state.term ∧ ∃ client request snapshot, x = .append client request ∧
      ready n client = some snapshot ∧ t.term = snapshot.term ∧
      n.state.journal.termOfLastEntry ≤ snapshot.term := by
  unfold takenBy at ht
  split at ht
  · rename_i client request
    split at ht
    · cases ht
    · rename_i snapshot hs
      split at ht
      · rename_i hok
        cases ht
        have hg := h.sound.journal_good
        refine ⟨h.sound.term_eq, client, request, snapshot, rfl, hs, rfl, ?_⟩
        rcases RaftJournal.appendNoLock_cases hg.commit_lt_size (RaftJournal.size_nonneg hg)
          n.state.journal.logSize { term := snapshot.term, request } with ⟨r, hr, hne⟩ | ⟨-, -, hl, -⟩
        · unfold trackerAppend RaftJournal.append at hok
          rw [hr] at hok
          exact absurd hok hne
        · exact hl
      · cases ht
  · cases ht

/-- An append that is not stale is taken with the current term, or not at all. -/
theorem taken_of_notStale {n : ServingNode} (h : Serving n) {x : ServeStep} {t : Taken}
    (hx : NotStale n x) (ht : takenBy n x = some t) : t.term = t.currentTerm := by
  obtain ⟨hc, client, request, snapshot, rfl, hs, hterm, hl⟩ := taken_terms h ht
  rcases hx snapshot hs with he | he
  · rw [hterm, he, hc, h.sound.term_eq]
  · omega

/-- A stale append is taken with an old term, whatever it writes. -/
theorem taken_of_stale {n : ServingNode} (h : Serving n) {client : Nat} {request : RedisRequest}
    (hx : ¬ NotStale n (.append client request)) (hr : request ≠ [])
    (hm : RaftJournal.isMembersUpdate request = false) :
    ∃ t, takenBy n (.append client request) = some t ∧ t.term < t.currentTerm := by
  simp only [NotStale, not_forall, not_or, not_lt] at hx
  obtain ⟨snapshot, hs, hne, hle⟩ := hx
  have hg := h.sound.journal_good
  have hterm : snapshot.term ≤ n.state.journal.currentTerm := by
    rw [h.sound.term_eq]
    exact h.held_le client snapshot (ready_held hs)
  have hok : (trackerAppend n.state snapshot request).1 = .ok true := by
    unfold trackerAppend RaftJournal.append
    rw [RaftJournal.appendNoLock_other hg.commit_lt_size (RaftJournal.size_nonneg hg) hterm hle hr
      hm]
  refine ⟨⟨snapshot.term, n.state.journal.currentTerm⟩, ?_, by
    show snapshot.term < n.state.journal.currentTerm
    omega⟩
  simp only [takenBy, hs, hok, if_true]

/-! ## Whole runs -/

theorem neverStale_append {n : ServingNode} {xs ys : List ServeStep}
    (h : NeverStale n (xs ++ ys)) : NeverStale n xs ∧ NeverStale (serveAll n xs) ys := by
  induction xs generalizing n with
  | nil => exact ⟨True.intro, h⟩
  | cons x xs ih =>
    obtain ⟨h1, h2⟩ := h
    obtain ⟨i1, i2⟩ := ih h2
    exact ⟨⟨h1, i1⟩, i2⟩

/-- What the journal takes in a run that is never stale has the term of the
journal then, and is not older than the run. -/
theorem takenIn_of_neverStale {n : ServingNode} (h : Serving n) {xs : List ServeStep}
    (hx : NeverStale n xs) :
    ∀ t ∈ takenIn n xs, t.term = t.currentTerm ∧ n.state.term ≤ t.term := by
  induction xs generalizing n with
  | nil =>
    intro t ht
    exact absurd ht List.not_mem_nil
  | cons x xs ih =>
    obtain ⟨hx, hxs⟩ := hx
    obtain ⟨h1, h2⟩ := serving_serve h x
    intro t ht
    rcases List.mem_append.mp ht with ht | ht
    · have ht : takenBy n x = some t := Option.mem_toList.mp ht
      have he := taken_of_notStale h hx ht
      obtain ⟨hc, -⟩ := taken_terms h ht
      exact ⟨he, by omega⟩
    · obtain ⟨i1, i2⟩ := ih h1 hxs t ht
      exact ⟨i1, le_trans h2 i2⟩

/-- In every run in which no append is stale, what the journal takes has the
journal's term, and a node that has reached a term never again takes an entry of
an older one. Where an append is stale, the journal takes it with an old term. -/
theorem a_leader_appends_in_its_own_term_unless_stale
    {clusterID : RaftClusterID} {nodes : List RaftServer} {startIndex : Int} {new : RaftJournal}
    {me : RaftServer} (h0 : 0 ≤ startIndex)
    (hnew : RaftJournal.obliterate clusterID nodes startIndex = .ok new)
    (hme : me.empty = false) (before : List ServeStep) :
    (∀ after, NeverStale (startOn new me) (before ++ after) →
      (∀ t ∈ takenIn (startOn new me) before, t.term = t.currentTerm) ∧
      ∀ t ∈ takenIn (serveAll (startOn new me) before) after,
        t.term = t.currentTerm ∧ (serveAll (startOn new me) before).state.term ≤ t.term) ∧
    ∀ client request, request ≠ [] → RaftJournal.isMembersUpdate request = false →
      ((∀ t, takenBy (serveAll (startOn new me) before) (.append client request) = some t →
          t.term = t.currentTerm) ↔
        NotStale (serveAll (startOn new me) before) (.append client request)) := by
  have hstart := serving_startOn (RaftJournal.good_obliterate h0 hnew) hme
  obtain ⟨hb, -⟩ := serving_serveAll hstart before
  refine ⟨fun after hn => ?_, fun client request hr hm => ⟨fun ht => ?_, fun hn t ht => ?_⟩⟩
  · obtain ⟨hn1, hn2⟩ := neverStale_append hn
    exact ⟨fun t ht => (takenIn_of_neverStale hstart hn1 t ht).1, takenIn_of_neverStale hb hn2⟩
  · by_contra hstale
    obtain ⟨t, h1, h2⟩ := taken_of_stale hb hstale hr hm
    have he := ht t h1
    omega
  · exact taken_of_notStale hb hn ht

theorem notStale_of_ready {n : ServingNode} {client : Nat} {request : RedisRequest}
    {snapshot : RaftStateSnapshot} (hs : ready n client = some snapshot)
    (ht : snapshot.term = n.state.journal.currentTerm) : NotStale n (.append client request) := by
  intro other ho
  rw [hs] at ho
  cases ho
  exact .inl ht

/-- The first node of two, `s1`, becomes leader of term 1, and reads its state for
a client's write. -/
def readAsLeader : List ServeStep :=
  [.call (.observed 1 {}), .call (.becomeCandidate 1), .call (.ascend 1), .setCommitIndex 1, .apply,
    .readSnapshot 0]

/-- The other node, `s2`, asks for a vote in term 2, with the same journal. -/
def askedInTermTwo : RaftVoteRequest :=
  { term := 2, candidate := ⟨ascii "s2", 7776⟩, lastIndex := 1, lastTerm := 1 }

def setRequest : RedisRequest := [ascii "SET", ascii "k", ascii "v"]

/-- A write that was appended in time: the node then votes in term 2, and takes
nothing more of term 1. -/
theorem a_write_in_time_has_the_term_of_the_journal :
    ∃ new, RaftJournal.obliterate (ascii "id") [⟨ascii "s1", 7776⟩, ⟨ascii "s2", 7776⟩] 0 = .ok new ∧
      takenIn (startOn new ⟨ascii "s1", 7776⟩) (readAsLeader ++ [.append 0 setRequest])
        = [⟨1, 1⟩] ∧
      ∀ t ∈ takenIn (startOn new ⟨ascii "s1", 7776⟩) (readAsLeader ++ [.append 0 setRequest]),
        t.term = t.currentTerm := by
  obtain ⟨new, hnew, ht, hs⟩ : ∃ new,
      RaftJournal.obliterate (ascii "id") [⟨ascii "s1", 7776⟩, ⟨ascii "s2", 7776⟩] 0 = .ok new ∧
      takenIn (startOn new ⟨ascii "s1", 7776⟩) (readAsLeader ++ [.append 0 setRequest])
        = [⟨1, 1⟩] ∧
      NeverStale (startOn new ⟨ascii "s1", 7776⟩)
        ((readAsLeader ++ [.append 0 setRequest]) ++ [.requestVote askedInTermTwo false]) := by
    refine ⟨_, rfl, rfl, True.intro, True.intro, True.intro, True.intro, True.intro, True.intro,
      notStale_of_ready rfl rfl, True.intro, True.intro⟩
  refine ⟨new, hnew, ht, ?_⟩
  exact ((a_leader_appends_in_its_own_term_unless_stale (le_refl 0) hnew (by decide) _).1 _ hs).1

/-- A write that was read in term 1 and is appended after the vote in term 2: the
journal takes it, with term 1. -/
theorem a_stale_write_is_taken :
    ∃ new, RaftJournal.obliterate (ascii "id") [⟨ascii "s1", 7776⟩, ⟨ascii "s2", 7776⟩] 0 = .ok new ∧
      (serveAll (startOn new ⟨ascii "s1", 7776⟩)
        (readAsLeader ++ [.requestVote askedInTermTwo false])).state.votedFor = ⟨ascii "s2", 7776⟩ ∧
      takenIn (startOn new ⟨ascii "s1", 7776⟩)
        (readAsLeader ++ [.requestVote askedInTermTwo false, .append 0 setRequest]) = [⟨1, 2⟩] :=
  ⟨_, rfl, rfl, rfl⟩

end ClientWrites

end quarkdb
