-- A vote is granted only to a candidate whose journal is no shorter in the order of
-- raft, and it is on the disk when the answer leaves. A pre-vote changes nothing.
import QuarkDB.RaftDispatcher

namespace quarkdb

namespace RaftState

open RaftStatus

/-! ## The vote is that of the journal -/

/-- The term and the vote are those that the journal holds. -/
structure Recorded (s : RaftState) : Prop where
  journal_good : RaftJournal.Good s.journal
  term_eq : s.journal.currentTerm = s.term
  vote_eq : s.journal.votedFor = s.votedFor

variable {s s' : RaftState}

/-- A first vote in this term, or any vote in a newer one, is written. -/
theorem recorded_updateJournal (h : Recorded s) (hj : s'.journal = s.journal)
    (ht : s.term < s'.term ∨ s'.term = s.term ∧ s.votedFor.empty = true) :
    Recorded s'.updateJournal := by
  have hg := good_updateJournal (s := s') (by rw [hj]; exact h.journal_good)
  have hcan : s'.journal.currentTerm < s'.term ∨
      s'.journal.currentTerm = s'.term ∧ s'.journal.votedFor.empty = true := by
    rw [hj, h.term_eq, h.vote_eq]
    rcases ht with ht | ⟨ht, he⟩
    · exact .inl ht
    · exact .inr ⟨ht.symm, he⟩
  rw [updateJournal_eq hcan] at hg ⊢
  exact ⟨hg, rfl, rfl⟩

theorem recorded_congr (h : Recorded s) (hj : s'.journal = s.journal) (ht : s'.term = s.term)
    (hv : s'.votedFor = s.votedFor) : Recorded s' := by
  refine ⟨?_, ?_, ?_⟩
  · rw [hj]
    exact h.journal_good
  · rw [hj, ht]
    exact h.term_eq
  · rw [hj, hv]
    exact h.vote_eq

theorem updateStatus_frame (s : RaftState) (newstatus : RaftStatus) :
    (s.updateStatus newstatus).journal = s.journal ∧
      (s.updateStatus newstatus).term = s.term ∧
      (s.updateStatus newstatus).votedFor = s.votedFor := by
  unfold updateStatus
  split <;> exact ⟨rfl, rfl, rfl⟩

theorem recorded_updateStatus (h : Recorded s) (newstatus : RaftStatus) :
    Recorded (s.updateStatus newstatus) := by
  obtain ⟨hj, ht, hv⟩ := updateStatus_frame s newstatus
  exact recorded_congr h hj ht hv

theorem recorded_observed (h : Recorded s) (observedTerm : Int) (observedLeader : RaftServer) :
    Recorded (s.observed observedTerm observedLeader).2 := by
  unfold observed
  split
  · exact h
  split
  · rename_i hlt
    obtain ⟨hj, -, -⟩ := enterTerm_frame s observedTerm observedLeader
    exact recorded_updateJournal h hj (.inl hlt)
  split
  · split
    · rename_i hb
      exact recorded_updateJournal h rfl (.inr ⟨rfl, by simpa using hb.2⟩)
    · exact recorded_congr h rfl rfl rfl
  · exact h

theorem recorded_becomeCandidate (h : Recorded s) (forTerm : Int) :
    Recorded (s.becomeCandidate forTerm).2 := by
  unfold becomeCandidate becomeCandidateWith
  split
  · exact h
  split
  · exact h
  split
  · exact h
  split
  · exact h
  split
  · exact h
  rename_i hv _
  have hj : Recorded { s with votedFor := s.myself }.updateJournal :=
    recorded_updateJournal h rfl (.inr ⟨rfl, by simpa using hv⟩)
  exact recorded_updateStatus hj _

theorem recorded_journal (h : Recorded s) {c : RaftJournal.JournalCall}
    (hk : RaftJournal.KeepsTerm c) : Recorded { s with journal := s.journal.after c } := by
  obtain ⟨hg, -, ht, hv⟩ := RaftJournal.good_after_of_keepsTerm h.journal_good c hk
  exact ⟨hg, ht.trans h.term_eq, hv.trans h.vote_eq⟩

theorem recorded_ascend (h : Recorded s) (forTerm : Int) : Recorded (s.ascend forTerm).2 := by
  have hj := @recorded_journal s h
    (.appendLeadershipMarker s.journal.logSize forTerm s.myself) True.intro
  rcases ascend_cases s forTerm with ⟨r, hr, -⟩ | ⟨-, -, -, -, ⟨r, -, hr⟩ | hr⟩
  · rw [hr]
    exact h
  · rw [hr]
    exact hj
  · rw [hr]
    exact recorded_congr hj rfl rfl rfl

theorem recorded_dropOut (h : Recorded s) (forTerm : Int) : Recorded (s.dropOut forTerm).2 := by
  unfold dropOut
  split
  · exact h
  split
  · exact h
  · exact recorded_updateStatus h _

theorem recorded_grantVote (h : Recorded s) (forTerm : Int) (vote : RaftServer) :
    Recorded (s.grantVote forTerm vote).2 := by
  unfold grantVote
  split
  · exact h
  split
  · exact h
  split
  · exact h
  split
  · exact h
  rename_i hv
  exact recorded_updateJournal h rfl (.inr ⟨rfl, by simpa using hv⟩)

theorem recorded_perform (h : Recorded s) (c : StateCall) : Recorded (s.perform c).2 := by
  cases c with
  | observed term leader => exact recorded_observed h term leader
  | becomeCandidate term => exact recorded_becomeCandidate h term
  | ascend term => exact recorded_ascend h term
  | dropOut term => exact recorded_dropOut h term
  | grantVote term vote => exact recorded_grantVote h term vote
  | shutdown => exact recorded_updateStatus h _

theorem recorded_restart (h : RaftJournal.Good s.journal) {me : RaftServer}
    (hr : restartFrom s.journal.db me = some s') : Recorded s' := by
  unfold restartFrom at hr
  cases hj : RaftJournal.initializeJournal s.journal.db with
  | error e => simp [hj] at hr
  | ok j =>
    simp only [hj, Option.some.injEq] at hr
    subst hr
    exact ⟨RaftJournal.good_reopen h hj, rfl, rfl⟩

theorem recorded_next (h : Recorded s) {x : NodeStep} (hn : s.next x = some s') :
    Recorded s' := by
  cases x with
  | call c =>
    cases hn
    exact recorded_perform h c
  | journal c hk =>
    cases hn
    exact recorded_journal h hk
  | restart => exact recorded_restart h.journal_good hn
  | crashIn c written =>
    cases written with
    | false => exact recorded_restart h.journal_good hn
    | true => exact recorded_restart (recorded_perform h c).journal_good hn

theorem recorded_runAll (h : Recorded s) {xs : List NodeStep} (hr : s.runAll xs = some s') :
    Recorded s' := by
  induction xs generalizing s with
  | nil =>
    cases hr
    exact h
  | cons x xs ih =>
    obtain ⟨t, ht, hr⟩ := Option.bind_eq_some_iff.mp hr
    exact ih (recorded_next h ht) hr

theorem recorded_ofJournal {j : RaftJournal} (h : RaftJournal.Good j) (me : RaftServer) :
    Recorded (ofJournal j me) := ⟨h, rfl, rfl⟩

/-- What the disk holds, and the next start reads. -/
theorem restart_reads (h : RaftJournal.Good s.journal) {me : RaftServer}
    (hr : restartFrom s.journal.db me = some s') :
    s'.term = s.journal.currentTerm ∧ s'.votedFor.toBytes = s.journal.votedFor.toBytes := by
  unfold restartFrom at hr
  cases hj : RaftJournal.initializeJournal s.journal.db with
  | error e => simp [hj] at hr
  | ok j =>
    simp only [hj, Option.some.injEq] at hr
    subst hr
    obtain ⟨hj', hv, -⟩ := RaftJournal.reopen_ok h hj
    refine ⟨?_, hv⟩
    show j.currentTerm = _
    rw [hj']

/-! ## What a granted vote says -/

theorem observed_term_le (s : RaftState) (observedTerm : Int) (observedLeader : RaftServer) :
    s.term ≤ (s.observed observedTerm observedLeader).2.term := by
  unfold observed
  split
  · exact le_refl _
  split
  · rename_i hlt
    exact le_of_lt hlt
  split
  · split <;> exact le_refl _
  · exact le_refl _

/-- The entries and the ends of a journal; all but its term and its vote. -/
theorem updateJournal_log (s : RaftState) : s.updateJournal.journal.fetch = s.journal.fetch ∧
    s.updateJournal.journal.logSize = s.journal.logSize ∧
    s.updateJournal.journal.commitIndex = s.journal.commitIndex := by
  unfold updateJournal
  rw [RaftJournal.setCurrentTerm_on]
  split <;> exact ⟨rfl, rfl, rfl⟩

theorem observed_log (s : RaftState) (observedTerm : Int) (observedLeader : RaftServer) :
    (s.observed observedTerm observedLeader).2.journal.fetch = s.journal.fetch ∧
    (s.observed observedTerm observedLeader).2.journal.logSize = s.journal.logSize ∧
    (s.observed observedTerm observedLeader).2.journal.commitIndex = s.journal.commitIndex := by
  unfold observed
  split
  · exact ⟨rfl, rfl, rfl⟩
  split
  · obtain ⟨hj, -, -⟩ := enterTerm_frame s observedTerm observedLeader
    rw [← hj]
    exact updateJournal_log _
  split
  · split
    · exact updateJournal_log _
    · exact ⟨rfl, rfl, rfl⟩
  · exact ⟨rfl, rfl, rfl⟩

/-- A vote that is granted is written, in the term it was asked for. -/
theorem grantVote_ok (h : Recorded s) {forTerm : Int} {vote : RaftServer}
    (hg : (s.grantVote forTerm vote).1 = true) :
    (s.grantVote forTerm vote).2.term = forTerm ∧ (s.grantVote forTerm vote).2.votedFor = vote ∧
      (s.grantVote forTerm vote).2.journal.db.currentTerm = forTerm ∧
      (s.grantVote forTerm vote).2.journal.db.votedFor = vote.toBytes := by
  unfold grantVote at hg ⊢
  split at hg
  · cases hg
  split at hg
  · cases hg
  split at hg
  · cases hg
  split at hg
  · cases hg
  rename_i h1 h2 h3 h4
  rw [if_neg h1, if_neg h2, if_neg h3, if_neg h4]
  have hterm : forTerm = s.term := not_not.mp h2
  have hcan : s.journal.currentTerm = s.term ∧ s.journal.votedFor.empty = true := by
    rw [h.term_eq, h.vote_eq]
    exact ⟨rfl, by simpa using h4⟩
  rw [updateJournal_eq (s := { s with votedFor := vote }) (.inr hcan)]
  exact ⟨hterm.symm, rfl, hterm.symm, rfl⟩

end RaftState

namespace RaftDispatcher

/-- The checks of a request that none of them refuses. -/
theorem refuses_none {s : RaftState} {req : RaftVoteRequest} {preVote : Bool}
    (h : refuses s req preVote = .ok none) :
    s.journal.commitIndex ≤ req.lastIndex ∧ s.term ≤ req.term ∧
      ∃ entry, s.journal.fetch (s.journal.logSize - 1) = some entry ∧
        (entry.term < req.lastTerm ∨
          entry.term = req.lastTerm ∧ s.journal.logSize - 1 ≤ req.lastIndex) := by
  unfold refuses at h
  split at h
  · cases h
  rename_i hover
  split at h
  · cases h
  rename_i hterm
  split at h
  · cases h
  split at h
  · cases h
  split at h
  · cases h
  rename_i hmore
  refine ⟨?_, not_lt.mp hterm, ?_⟩
  · -- at or below the commit index, only the commit index itself is not refused
    unfold overwritesCommitted at hover
    split at hover
    · split at hover
      · cases hover
      · split at hover
        · cases hover
        · split at hover
          · cases hover
          · split at hover
            · cases hover
            · omega
    · omega
  · unfold moreUpToDate at hmore
    dsimp only at hmore
    split at hmore
    · exact absurd rfl hmore
    · rename_i entry he
      refine ⟨entry, he, ?_⟩
      simp only [Bool.or_eq_true, Bool.and_eq_true, decide_eq_true_eq, not_or, not_and] at hmore
      obtain ⟨h1, h2⟩ := hmore
      rcases lt_or_eq_of_le (not_lt.mp h1) with hlt | heq
      · exact .inl hlt
      · exact .inr ⟨heq, not_lt.mp (h2 heq.symm)⟩

end RaftDispatcher

end quarkdb
