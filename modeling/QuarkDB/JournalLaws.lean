-- The laws of the journal. Every call keeps the invariant `Good`, also one
-- that is refused or throws, so it holds after any sequence of calls: the
-- counters agree with the entries, the memory agrees with the disk, and a
-- committed entry stays as it is until it is trimmed.
import QuarkDB.RaftJournal

namespace quarkdb
namespace RaftJournal

/-! ## The invariant -/

/-- The memory of the journal says what its disk says. -/
structure Mirrored (j : RaftJournal) : Prop where
  current_term : j.db.currentTerm = j.currentTerm
  log_size : j.db.logSize = j.logSize
  log_start : j.db.logStart = j.logStart
  cluster_id : j.db.clusterID = j.clusterID
  commit_index : j.db.commitIndex = j.commitIndex
  voted_for : j.db.votedFor = j.votedFor.toBytes
  epoch : j.db.membershipEpoch = j.membershipEpoch
  members : RaftMembers.parse j.db.members = some j.members

/-- Entries are stored at the indices in `[logStart, logSize)` and nowhere else. -/
def StoredExactly (j : RaftJournal) : Prop :=
  ∀ i, (j.db.entries i).isSome ↔ j.logStart ≤ i ∧ i < j.logSize

/-- The terms of the entries never go down as the index goes up. -/
def TermsSorted (j : RaftJournal) : Prop :=
  ∀ i k a b, i ≤ k → j.db.entries i = some a → j.db.entries k = some b → a.term ≤ b.term

/-- The term of the last entry is known. -/
def LastTermKnown (j : RaftJournal) : Prop :=
  ∃ e, j.db.entries (j.logSize - 1) = some e ∧ e.term = j.termOfLastEntry

structure Good (j : RaftJournal) : Prop where
  start_nonneg : 0 ≤ j.logStart
  start_le_commit : j.logStart ≤ j.commitIndex
  commit_lt_size : j.commitIndex < j.logSize
  stored : StoredExactly j
  sorted : TermsSorted j
  last : LastTermKnown j
  last_le : j.termOfLastEntry ≤ j.currentTerm
  mirrored : Mirrored j

theorem size_nonneg {j : RaftJournal} (h : Good j) : 0 ≤ j.logSize := by
  have h1 := h.start_nonneg
  have h2 := h.start_le_commit
  have h3 := h.commit_lt_size
  omega

/-- What opening a journal again can change: a vote that names no server. -/
theorem reopen_ok {j j' : RaftJournal} (h : Good j) (hj : initializeJournal j.db = .ok j') :
    j' = { j with votedFor := j'.votedFor } ∧ j'.votedFor.toBytes = j.votedFor.toBytes ∧
      (j.votedFor.empty = false → j'.votedFor = j.votedFor) := by
  obtain ⟨e, he, ht⟩ := h.last
  obtain ⟨m1, m2, m3, m4, m5, m6, m7, m8⟩ := h.mirrored
  unfold initializeJournal RaftMembers.ofBytes at hj
  rw [m2, he, m6, m8] at hj
  cases hv : parseVote j.votedFor.toBytes with
  | none => simp [hv, bind, Except.bind, throw, throwThe, MonadExceptOf.throw, pure, Except.pure] at hj
  | some v =>
    simp only [hv, bind, Except.bind, pure, Except.pure, Except.ok.injEq, m1, m3, m4, m5, m7, ht]
      at hj
    obtain ⟨hb, hs⟩ := parseVote_toBytes hv
    subst hj
    exact ⟨rfl, hb, hs⟩

/-- A journal that is closed and opened again is the same journal. -/
theorem reopen_eq {j : RaftJournal} (h : Good j) (hv : j.votedFor.ReadsBack) :
    initializeJournal j.db = .ok j := by
  obtain ⟨e, he, ht⟩ := h.last
  obtain ⟨m1, m2, m3, m4, m5, m6, m7, m8⟩ := h.mirrored
  unfold RaftServer.ReadsBack at hv
  unfold initializeJournal RaftMembers.ofBytes
  rw [m2, he, m6, hv, m8]
  simp only [bind, Except.bind, pure, Except.pure, m1, m3, m4, m5, m7, ht]

theorem good_reopen {j j' : RaftJournal} (h : Good j) (hj : initializeJournal j.db = .ok j') :
    Good j' := by
  obtain ⟨hj', hb, -⟩ := reopen_ok h hj
  obtain ⟨g1, g2, g3, g4, g5, g6, g7, m⟩ := h
  rw [hj']
  exact ⟨g1, g2, g3, g4, g5, g6, g7, ⟨m.current_term, m.log_size, m.log_start, m.cluster_id,
    m.commit_index, by rw [hb]; exact m.voted_for, m.epoch, m.members⟩⟩

/-- Every entry that is stored has at most the term of the last one. -/
theorem term_le_last {j : RaftJournal} (h : Good j) {i : Int} {e : RaftEntry}
    (he : j.db.entries i = some e) : e.term ≤ j.termOfLastEntry := by
  obtain ⟨l, hl, ht⟩ := h.last
  have hi := (h.stored i).mp (by simp [he])
  rw [← ht]
  exact h.sorted i (j.logSize - 1) e l (by omega) he hl

/-! ## A new journal -/

theorem good_obliterate {clusterID : RaftClusterID} {nodes : List RaftServer} {startIndex : Int}
    {j : RaftJournal} (h0 : 0 ≤ startIndex) (h : obliterate clusterID nodes startIndex = .ok j) :
    Good j := by
  unfold obliterate initializeJournal at h
  have hs : startIndex + 1 - 1 = startIndex := by omega
  simp only [hs, if_true, bind, Except.bind, pure, Except.pure] at h
  cases hp : RaftMembers.parse (RaftMembers.toBytes { nodes := nodes, observers := [] }) with
  | none => simp [RaftMembers.ofBytes, hp] at h
  | some m =>
    simp only [RaftMembers.ofBytes, hp, parseVote, if_true, Except.ok.injEq] at h
    subst h
    refine ⟨h0, by simp, by show startIndex < startIndex + 1; omega, ?_, ?_,
      ⟨_, by simp only [hs, if_true], rfl⟩, by simp [updateMembersEntry],
      ⟨rfl, rfl, rfl, rfl, rfl, rfl, rfl, hp⟩⟩
    · intro i
      by_cases hi : i = startIndex
      · simp only [hi, if_true, Option.isSome_some, true_iff]
        omega
      · simp only [hi, if_false, Option.isSome_none, Bool.false_eq_true, false_iff]
        omega
    · intro i k a b _ ha hb
      simp only at ha hb
      split at ha
      · split at hb
        · cases ha; cases hb; exact le_refl _
        · cases hb
      · cases ha

/-- A new journal has not voted. -/
theorem readsBack_obliterate {clusterID : RaftClusterID} {nodes : List RaftServer}
    {startIndex : Int} {j : RaftJournal} (h : obliterate clusterID nodes startIndex = .ok j) :
    j.votedFor.ReadsBack := by
  unfold obliterate initializeJournal at h
  have hs : startIndex + 1 - 1 = startIndex := by omega
  simp only [hs, if_true, bind, Except.bind, pure, Except.pure] at h
  cases hp : RaftMembers.parse (RaftMembers.toBytes { nodes := nodes, observers := [] }) with
  | none => simp [RaftMembers.ofBytes, hp] at h
  | some m =>
    simp only [RaftMembers.ofBytes, hp, parseVote, if_true, Except.ok.injEq] at h
    subst h
    exact empty_server_reads_back

/-! ## An entry more -/

/-- What a request does to the members changes nothing that the invariant of the
entries is about. -/
theorem good_takes {j j' : RaftJournal} {request : RedisRequest} (ht : Takes j request j')
    (h : Good j) : Good j' := by
  cases ht with
  | other _ => exact h
  | foreign _ _ _ => exact h
  | members _ _ hp =>
    obtain ⟨g1, g2, g3, g4, g5, g6, g7, m⟩ := h
    exact ⟨g1, g2, g3, g4, g5, g6, g7,
      ⟨m.current_term, m.log_size, m.log_start, m.cluster_id, m.commit_index, m.voted_for, rfl, hp⟩⟩

/-- A request keeps everything but the members. -/
theorem takes_frame {j j' : RaftJournal} {request : RedisRequest} (ht : Takes j request j') :
    j'.db.entries = j.db.entries ∧ j'.logSize = j.logSize ∧ j'.logStart = j.logStart ∧
      j'.commitIndex = j.commitIndex ∧ j'.currentTerm = j.currentTerm ∧
      j'.termOfLastEntry = j.termOfLastEntry ∧ j'.votedFor = j.votedFor ∧
      j'.clusterID = j.clusterID := by
  cases ht <;> exact ⟨rfl, rfl, rfl, rfl, rfl, rfl, rfl, rfl⟩

theorem good_withEntry {j : RaftJournal} {entry : RaftEntry} (h : Good j)
    (hc : entry.term ≤ j.currentTerm) (hl : j.termOfLastEntry ≤ entry.term) :
    Good (j.withEntry entry) := by
  have hlast := fun i e (he : j.db.entries i = some e) => term_le_last h he
  obtain ⟨g1, g2, g3, g4, g5, g6, g7, m⟩ := h
  have hn : j.db.entries j.logSize = none := by
    rw [← Option.not_isSome_iff_eq_none, g4]
    omega
  refine ⟨g1, g2, ?_, ?_, ?_, ⟨entry, ?_, rfl⟩, hc,
    ⟨m.current_term, rfl, m.log_start, m.cluster_id, m.commit_index, m.voted_for, m.epoch,
      m.members⟩⟩
  · show j.commitIndex < j.logSize + 1
    omega
  · intro i
    show _ ↔ j.logStart ≤ i ∧ i < j.logSize + 1
    rw [withEntry_entries]
    by_cases hi : i = j.logSize
    · simp only [hi, if_true, Option.isSome_some, true_iff]
      omega
    · rw [if_neg hi, g4]
      omega
  · intro i k a b hik ha hb
    rw [withEntry_entries] at ha hb
    by_cases hk : k = j.logSize
    · rw [if_pos hk] at hb
      cases hb
      by_cases hi : i = j.logSize
      · rw [if_pos hi] at ha
        cases ha
        exact le_refl _
      · rw [if_neg hi] at ha
        exact le_trans (hlast i a ha) hl
    · rw [if_neg hk] at hb
      have hks := (g4 k).mp (by simp [hb])
      rw [if_neg (by omega)] at ha
      exact g5 i k a b hik ha hb
  · have : (j.withEntry entry).logSize - 1 = j.logSize := by
      show j.logSize + 1 - 1 = j.logSize
      omega
    rw [withEntry_entries, if_pos this]

/-! ## Entries fewer -/

theorem good_rollsBack {j j' : RaftJournal} {first : Int} (hr : RollsBack j first j')
    (h : Good j) : Good j' := by
  cases hr with
  | keep _ => exact h
  | back _ _ _ hp =>
    obtain ⟨g1, g2, g3, g4, g5, g6, g7, m⟩ := h
    exact ⟨g1, g2, g3, g4, g5, g6, g7,
      ⟨m.current_term, m.log_size, m.log_start, m.cluster_id, m.commit_index, m.voted_for, rfl, hp⟩⟩

theorem rollsBack_frame {j j' : RaftJournal} {first : Int} (hr : RollsBack j first j') :
    j'.db.entries = j.db.entries ∧ j'.logSize = j.logSize ∧ j'.logStart = j.logStart ∧
      j'.commitIndex = j.commitIndex ∧ j'.currentTerm = j.currentTerm ∧
      j'.votedFor = j.votedFor ∧ j'.clusterID = j.clusterID := by
  cases hr <;> exact ⟨rfl, rfl, rfl, rfl, rfl, rfl, rfl⟩

theorem good_withoutEntries {j : RaftJournal} {first : Int} {entry : RaftEntry} (h : Good j)
    (hc : j.commitIndex < first) (hs : first < j.logSize)
    (he : j.db.entries (first - 1) = some entry) : Good (j.withoutEntries first entry.term) := by
  have hle := term_le_last h he
  obtain ⟨g1, g2, g3, g4, g5, g6, g7, m⟩ := h
  refine ⟨g1, g2, hc, ?_, ?_, ⟨entry, ?_, rfl⟩, le_trans hle g7,
    ⟨m.current_term, rfl, m.log_start, m.cluster_id, m.commit_index, m.voted_for, m.epoch,
      m.members⟩⟩
  · intro i
    show _ ↔ j.logStart ≤ i ∧ i < first
    rw [withoutEntries_entries]
    by_cases hi : first ≤ i ∧ i < j.logSize
    · simp only [hi, and_self, if_true, Option.isSome_none, Bool.false_eq_true, false_iff]
      omega
    · rw [if_neg hi, g4]
      omega
  · intro i k a b hik ha hb
    rw [withoutEntries_entries] at ha hb
    split at ha
    · cases ha
    · split at hb
      · cases hb
      · exact g5 i k a b hik ha hb
  · show (j.withoutEntries first entry.term).db.entries (first - 1) = some entry
    rw [withoutEntries_entries, if_neg (by omega)]
    exact he

/-! ## The calls -/

/-- A call that changes a journal, with any arguments. -/
inductive JournalCall
  | append (index : Int) (entry : RaftEntry)
  | membershipUpdate (term : Int) (newMembers : RaftMembers)
  | addObserver (term : Int) (observer : RaftServer)
  | removeMember (term : Int) (member : RaftServer)
  | promoteObserver (term : Int) (observer : RaftServer)
  | demoteToObserver (term : Int) (member : RaftServer)
  | appendLeadershipMarker (index term : Int) (leader : RaftServer)
  | removeEntries (first : Int)
  | setCommitIndex (newIndex : Int)
  | trimUntil (newLogStart : Int)
  | setCurrentTerm (term : Int) (vote : RaftServer)
  | reopen

/-- The journal after a call, whether it returned or threw. -/
def after (j : RaftJournal) : JournalCall → RaftJournal
  | .append index entry => ((append index entry).on j).2
  | .membershipUpdate term newMembers => ((membershipUpdate term newMembers).on j).2
  | .addObserver term observer => ((addObserver term observer).on j).2
  | .removeMember term member => ((removeMember term member).on j).2
  | .promoteObserver term observer => ((promoteObserver term observer).on j).2
  | .demoteToObserver term member => ((demoteToObserver term member).on j).2
  | .appendLeadershipMarker index term leader => ((appendLeadershipMarker index term leader).on j).2
  | .removeEntries first => ((removeEntries first).on j).2
  | .setCommitIndex newIndex => ((setCommitIndex newIndex).on j).2
  | .trimUntil newLogStart => ((trimUntil newLogStart).on j).2
  | .setCurrentTerm term vote => ((setCurrentTerm term vote).on j).2
  | .reopen =>
    match initializeJournal j.db with
    | .ok j' => j'
    | .error _ => j

/-- The journal after a sequence of calls. -/
def afterAll (j : RaftJournal) (calls : List JournalCall) : RaftJournal := calls.foldl after j

/-- The vote of a call is one that the disk gives back. -/
def VoteReadsBack : JournalCall → Prop
  | .setCurrentTerm _ vote => vote.ReadsBack
  | _ => True

/-- What a call may do to the committed entries: only a trim removes one, and
nothing changes one. -/
def CommittedKept (j : RaftJournal) (call : JournalCall) (j' : RaftJournal) : Prop :=
  j.commitIndex ≤ j'.commitIndex ∧ j.logStart ≤ j'.logStart ∧
  ∀ i ≤ j.commitIndex, j'.db.entries i = j.db.entries i ∨
    (∃ n, call = .trimUntil n) ∧ j'.db.entries i = none ∧ i < j'.logStart

/-- The term and the vote stay. -/
def SameVote (j j' : RaftJournal) : Prop :=
  j'.currentTerm = j.currentTerm ∧ j'.votedFor = j.votedFor

theorem committedKept_self (j : RaftJournal) (call : JournalCall) : CommittedKept j call j :=
  ⟨le_refl _, le_refl _, fun _ _ => .inl rfl⟩

/-- An append keeps the invariant and every entry that was there. -/
theorem good_appendNoLock {j : RaftJournal} (h : Good j) (index : Int) (entry : RaftEntry)
    (call : JournalCall) :
    Good ((appendNoLock index entry).on j).2 ∧
      CommittedKept j call ((appendNoLock index entry).on j).2 ∧
      SameVote j ((appendNoLock index entry).on j).2 := by
  have hc := h.commit_lt_size
  rcases appendNoLock_cases hc (size_nonneg h) index entry with ⟨r, hr, -⟩ | ⟨rfl, ht, hl, j', htk, hr⟩
  · rw [hr]
    exact ⟨h, committedKept_self j call, rfl, rfl⟩
  · rw [hr]
    obtain ⟨f1, f2, f3, f4, f5, f6, f7, -⟩ := takes_frame htk
    refine ⟨good_withEntry (good_takes htk h) (by rw [f5]; exact ht) (by rw [f6]; exact hl), ?_,
      f5, f7⟩
    refine ⟨le_of_eq f4.symm, le_of_eq f3.symm, fun i hi => .inl ?_⟩
    rw [withEntry_entries, if_neg (by omega), f1]

/-- A membership update that is not refused is an append. -/
theorem membershipUpdate_state (j : RaftJournal) (term : Int) (newMembers : RaftMembers) :
    ((membershipUpdate term newMembers).on j).2 = j ∨
      ∃ entry, ((membershipUpdate term newMembers).on j).2 =
        ((appendNoLock j.logSize entry).on j).2 := by
  unfold membershipUpdate
  by_cases hm : j.commitIndex < j.membershipEpoch
  · left
    simp only [Call.on_bind, Call.on_get, hm, if_true, Call.on_pure]
  · refine .inr ⟨updateMembersEntry term newMembers j.clusterID, ?_⟩
    simp only [Call.on_bind, Call.on_get, hm, if_false]
    generalize (appendNoLock j.logSize (updateMembersEntry term newMembers j.clusterID)).on j = r
    obtain ⟨r, j'⟩ := r
    cases r <;> rfl

theorem updateWith_state (j : RaftJournal) (change : RaftMembers → Except Bytes RaftMembers)
    (term : Int) :
    ((updateWith change term).on j).2 = j ∨
      ∃ entry, ((updateWith change term).on j).2 = ((appendNoLock j.logSize entry).on j).2 := by
  unfold updateWith
  simp only [Call.on_bind, Call.on_get]
  cases change j.members with
  | error err => exact .inl rfl
  | ok newMembers => exact membershipUpdate_state j term newMembers

/-- A call that is an append or nothing keeps what an append keeps. -/
theorem good_of_append {j j' : RaftJournal} (h : Good j) (call : JournalCall)
    (hj : j' = j ∨ ∃ entry, j' = ((appendNoLock j.logSize entry).on j).2) :
    Good j' ∧ CommittedKept j call j' ∧ SameVote j j' := by
  rcases hj with rfl | ⟨entry, rfl⟩
  · exact ⟨h, committedKept_self j' call, rfl, rfl⟩
  · exact good_appendNoLock h j.logSize entry call

theorem good_removeEntries {j : RaftJournal} (h : Good j) (first : Int) (call : JournalCall) :
    Good ((removeEntries first).on j).2 ∧
      CommittedKept j call ((removeEntries first).on j).2 ∧
      SameVote j ((removeEntries first).on j).2 := by
  have h0 : 0 ≤ j.commitIndex := le_trans h.start_nonneg h.start_le_commit
  have hs : ∀ i, j.commitIndex ≤ i → i < j.logSize → (j.db.entries i).isSome := by
    intro i h1 h2
    exact (h.stored i).mpr ⟨le_trans h.start_le_commit h1, h2⟩
  rcases removeEntries_cases h0 first hs with ⟨r, hr, -⟩ | ⟨hc, hl, j', entry, hb, he, hr⟩
  · rw [hr]
    exact ⟨h, committedKept_self j call, rfl, rfl⟩
  · rw [hr]
    obtain ⟨f1, f2, f3, f4, f5, f6, -⟩ := rollsBack_frame hb
    refine ⟨good_withoutEntries (good_rollsBack hb h) (by rw [f4]; exact hc) (by rw [f2]; exact hl)
      (by rw [f1]; exact he), ?_, f5, f6⟩
    refine ⟨le_of_eq f4.symm, le_of_eq f3.symm, fun i hi => .inl ?_⟩
    rw [withoutEntries_entries, if_neg (by omega), f1]

theorem good_setCommitIndex {j : RaftJournal} (h : Good j) (newIndex : Int) (call : JournalCall) :
    Good ((setCommitIndex newIndex).on j).2 ∧
      CommittedKept j call ((setCommitIndex newIndex).on j).2 ∧
      SameVote j ((setCommitIndex newIndex).on j).2 := by
  rw [setCommitIndex_on]
  split
  · exact ⟨h, committedKept_self j call, rfl, rfl⟩
  split
  · exact ⟨h, committedKept_self j call, rfl, rfl⟩
  split
  · rename_i h1 h2 h3
    obtain ⟨g1, g2, g3, g4, g5, g6, g7, m⟩ := h
    refine ⟨⟨g1, le_trans g2 (le_of_lt h3), by simpa using h2, g4, g5, g6, g7,
      ⟨m.current_term, m.log_size, m.log_start, m.cluster_id, rfl, m.voted_for, m.epoch,
        m.members⟩⟩, ?_, rfl, rfl⟩
    exact ⟨le_of_lt h3, le_refl _, fun i _ => .inl rfl⟩
  · exact ⟨h, committedKept_self j call, rfl, rfl⟩

theorem good_setCurrentTerm {j : RaftJournal} (h : Good j) (term : Int) (vote : RaftServer)
    (call : JournalCall) :
    Good ((setCurrentTerm term vote).on j).2 ∧
      CommittedKept j call ((setCurrentTerm term vote).on j).2 := by
  rw [setCurrentTerm_on]
  split
  · exact ⟨h, committedKept_self j call⟩
  · rename_i hn
    rw [not_or, not_lt] at hn
    obtain ⟨g1, g2, g3, g4, g5, g6, g7, m⟩ := h
    refine ⟨⟨g1, g2, g3, g4, g5, g6, le_trans g7 hn.1,
      ⟨rfl, m.log_size, m.log_start, m.cluster_id, m.commit_index, rfl, m.epoch, m.members⟩⟩, ?_⟩
    exact ⟨le_refl _, le_refl _, fun i _ => .inl rfl⟩

theorem good_trimUntil {j : RaftJournal} (h : Good j) (newLogStart : Int) :
    Good ((trimUntil newLogStart).on j).2 ∧
      CommittedKept j (.trimUntil newLogStart) ((trimUntil newLogStart).on j).2 ∧
      SameVote j ((trimUntil newLogStart).on j).2 := by
  rw [trimUntil_on]
  split
  · exact ⟨h, committedKept_self j _, rfl, rfl⟩
  split
  · exact ⟨h, committedKept_self j _, rfl, rfl⟩
  split
  · exact ⟨h, committedKept_self j _, rfl, rfl⟩
  rename_i h1 h2 h3
  obtain ⟨g1, g2, g3, g4, g5, ⟨e, he, het⟩, g7, m⟩ := h
  refine ⟨⟨by show 0 ≤ newLogStart; omega, by show newLogStart ≤ j.commitIndex; omega, g3, ?_, ?_,
    ⟨e, ?_, het⟩, g7, ⟨m.current_term, m.log_size, rfl, m.cluster_id, m.commit_index, m.voted_for,
      m.epoch, m.members⟩⟩, ?_, rfl, rfl⟩
  · intro i
    show (if j.logStart ≤ i ∧ i < newLogStart then none else j.db.entries i).isSome ↔
      newLogStart ≤ i ∧ i < j.logSize
    by_cases hi : j.logStart ≤ i ∧ i < newLogStart
    · simp only [hi, and_self, if_true, Option.isSome_none, Bool.false_eq_true, false_iff]
      omega
    · rw [if_neg hi, g4]
      omega
  · intro i k a b hik ha hb
    simp only at ha hb
    split at ha
    · cases ha
    · split at hb
      · cases hb
      · exact g5 i k a b hik ha hb
  · show (if j.logStart ≤ j.logSize - 1 ∧ j.logSize - 1 < newLogStart then none else _) = some e
    rw [if_neg (by omega)]
    exact he
  · refine ⟨le_refl _, by show j.logStart ≤ newLogStart; omega, fun i hi => ?_⟩
    show (if j.logStart ≤ i ∧ i < newLogStart then none else j.db.entries i) = _ ∨ _
    by_cases hti : j.logStart ≤ i ∧ i < newLogStart
    · exact .inr ⟨⟨newLogStart, rfl⟩, by simp only; rw [if_pos hti], hti.2⟩
    · exact .inl (by rw [if_neg hti])

/-- The calls that have nothing to do with terms. -/
def KeepsTerm : JournalCall → Prop
  | .setCurrentTerm _ _ => False
  | .reopen => False
  | _ => True

/-- A call that has nothing to do with terms keeps the invariant, the committed
entries, the term and the vote. -/
theorem good_after_of_keepsTerm {j : RaftJournal} (h : Good j) (call : JournalCall)
    (hk : KeepsTerm call) :
    Good (j.after call) ∧ CommittedKept j call (j.after call) ∧ SameVote j (j.after call) := by
  cases call with
  | append index entry => exact good_appendNoLock h index entry _
  | membershipUpdate term newMembers =>
    exact good_of_append h _ (membershipUpdate_state j term newMembers)
  | addObserver term observer => exact good_of_append h _ (updateWith_state j _ term)
  | removeMember term member => exact good_of_append h _ (updateWith_state j _ term)
  | promoteObserver term observer => exact good_of_append h _ (updateWith_state j _ term)
  | demoteToObserver term member => exact good_of_append h _ (updateWith_state j _ term)
  | appendLeadershipMarker index term leader => exact good_appendNoLock h index _ _
  | removeEntries first => exact good_removeEntries h first _
  | setCommitIndex newIndex => exact good_setCommitIndex h newIndex _
  | trimUntil newLogStart => exact good_trimUntil h newLogStart
  | setCurrentTerm term vote => exact absurd hk id
  | reopen => exact absurd hk id

/-- One call keeps the invariant and the committed entries. -/
theorem good_after {j : RaftJournal} (h : Good j) (call : JournalCall) :
    Good (j.after call) ∧ CommittedKept j call (j.after call) := by
  by_cases hk : KeepsTerm call
  · obtain ⟨hg, hc, -⟩ := good_after_of_keepsTerm h call hk
    exact ⟨hg, hc⟩
  · cases call with
    | setCurrentTerm term vote => exact good_setCurrentTerm h term vote _
    | reopen =>
      unfold after
      cases hj : initializeJournal j.db with
      | error e => exact ⟨h, committedKept_self j _⟩
      | ok j' =>
        refine ⟨good_reopen h hj, ?_⟩
        rw [(reopen_ok h hj).1]
        exact committedKept_self j _
    | _ => exact absurd True.intro hk

/-- One call leaves a vote that reads back. -/
theorem readsBack_after {j : RaftJournal} (h : Good j) (hr : j.votedFor.ReadsBack)
    (call : JournalCall) (hv : VoteReadsBack call) : (j.after call).votedFor.ReadsBack := by
  by_cases hk : KeepsTerm call
  · obtain ⟨-, -, -, hs⟩ := good_after_of_keepsTerm h call hk
    rw [hs]
    exact hr
  · cases call with
    | setCurrentTerm term vote =>
      show ((setCurrentTerm term vote).on j).2.votedFor.ReadsBack
      rw [setCurrentTerm_on]
      split
      · exact hr
      · exact hv
    | reopen =>
      have hj : j.after .reopen = j := by
        unfold after
        rw [reopen_eq h hr]
      rw [hj]
      exact hr
    | _ => exact absurd True.intro hk

/-! ## Sequences of calls -/

theorem afterAll_snoc (j : RaftJournal) (calls : List JournalCall) (c : JournalCall) :
    j.afterAll (calls ++ [c]) = (j.afterAll calls).after c := by
  simp only [afterAll, List.foldl_append, List.foldl_cons, List.foldl_nil]

theorem good_afterAll {j : RaftJournal} (h : Good j) (calls : List JournalCall) :
    Good (j.afterAll calls) := by
  induction calls using List.reverseRecOn with
  | nil => exact h
  | append_singleton calls c ih =>
    rw [afterAll_snoc]
    exact (good_after ih c).1

theorem readsBack_afterAll {j : RaftJournal} (h : Good j) (hr : j.votedFor.ReadsBack)
    (calls : List JournalCall) (hv : ∀ c ∈ calls, VoteReadsBack c) :
    (j.afterAll calls).votedFor.ReadsBack := by
  induction calls using List.reverseRecOn with
  | nil => exact hr
  | append_singleton calls c ih =>
    rw [afterAll_snoc]
    have hr' := ih fun c' hc' => hv c' (by simp [hc'])
    exact readsBack_after (good_afterAll h calls) hr' c (hv c (by simp))

/-- Across any calls an index that was committed keeps its entry, or is trimmed. -/
theorem committed_afterAll {j : RaftJournal} (h : Good j) (calls : List JournalCall) :
    j.commitIndex ≤ (j.afterAll calls).commitIndex ∧
    ∀ i ≤ j.commitIndex, (j.afterAll calls).db.entries i = j.db.entries i ∨
      (j.afterAll calls).db.entries i = none ∧ i < (j.afterAll calls).logStart := by
  induction calls using List.reverseRecOn with
  | nil => exact ⟨le_refl _, fun i _ => .inl rfl⟩
  | append_singleton calls c ih =>
    obtain ⟨ihc, ihe⟩ := ih
    obtain ⟨-, kc, ks, ke⟩ := good_after (good_afterAll h calls) c
    rw [afterAll_snoc]
    refine ⟨le_trans ihc kc, fun i hi => ?_⟩
    rcases ke i (le_trans hi ihc) with hk | ⟨-, hn, hs⟩
    · rw [hk]
      rcases ihe i hi with h1 | ⟨h1, h2⟩
      · exact .inl h1
      · exact .inr ⟨h1, lt_of_lt_of_le h2 ks⟩
    · exact .inr ⟨hn, hs⟩

/-- After any sequence of calls on a new journal its counters agree with its
entries, the terms are in order, opening it again gives the same journal, and
from there on a committed entry is never changed and goes only by a trim. -/
theorem the_journal_agrees_with_itself_after_any_calls
    {clusterID : RaftClusterID} {nodes : List RaftServer} {startIndex : Int} {new : RaftJournal}
    (h0 : 0 ≤ startIndex) (hnew : obliterate clusterID nodes startIndex = .ok new)
    (calls : List JournalCall) (hv : ∀ c ∈ calls, VoteReadsBack c) :
    let j := new.afterAll calls
    j.logStart ≤ j.commitIndex ∧ j.commitIndex < j.logSize ∧ StoredExactly j ∧ TermsSorted j ∧
    LastTermKnown j ∧ j.termOfLastEntry ≤ j.currentTerm ∧ initializeJournal j.db = .ok j ∧
    (∀ call, ∀ i ≤ j.commitIndex,
      (j.after call).db.entries i = j.db.entries i ∨
      (∃ n, call = .trimUntil n) ∧ (j.after call).db.entries i = none) ∧
    ∀ more, ∀ i ≤ j.commitIndex,
      (j.afterAll more).db.entries i = j.db.entries i ∨ i < (j.afterAll more).logStart := by
  intro j
  have hg : Good j := good_afterAll (good_obliterate h0 hnew) calls
  have hr : j.votedFor.ReadsBack :=
    readsBack_afterAll (good_obliterate h0 hnew) (readsBack_obliterate hnew) calls hv
  refine ⟨hg.start_le_commit, hg.commit_lt_size, hg.stored, hg.sorted, hg.last, hg.last_le,
    reopen_eq hg hr, ?_, ?_⟩
  · intro call i hi
    rcases (good_after hg call).2.2.2 i hi with hk | ⟨ht, hn, -⟩
    · exact .inl hk
    · exact .inr ⟨ht, hn⟩
  · intro more i hi
    rcases (committed_afterAll hg more).2 i hi with hk | ⟨-, hs⟩
    · exact .inl hk
    · exact .inr hs

/-- A journal of one node that voted, wrote, committed, cut, trimmed and was
opened again. -/
theorem a_used_journal_agrees_with_itself :
    ∃ new, obliterate (ascii "id") [⟨ascii "s1", 7776⟩] 0 = .ok new ∧
      StoredExactly (new.afterAll
        [.setCurrentTerm 1 ⟨ascii "s1", 7776⟩, .appendLeadershipMarker 1 1 ⟨ascii "s1", 7776⟩,
          .append 2 ⟨1, [ascii "SET", ascii "k", ascii "v"]⟩, .setCommitIndex 1,
          .addObserver 1 ⟨ascii "s2", 7776⟩, .removeEntries 2, .trimUntil 1, .reopen]) := by
  obtain ⟨new, hnew⟩ : ∃ new, obliterate (ascii "id") [⟨ascii "s1", 7776⟩] 0 = .ok new := ⟨_, rfl⟩
  refine ⟨new, hnew, ?_⟩
  refine (the_journal_agrees_with_itself_after_any_calls (le_refl 0) hnew _ ?_).2.2.1
  intro c hc
  simp only [List.mem_cons, List.not_mem_nil, or_false] at hc
  have hv : RaftServer.ReadsBack ⟨ascii "s1", 7776⟩ := by decide
  rcases hc with rfl | rfl | rfl | rfl | rfl | rfl | rfl | rfl <;> first | exact hv | exact True.intro

end RaftJournal

end quarkdb
