-- What the calls of a node do to its state. Most are calm: the node learns of a term, gives
-- its vote, commits, trims or restarts, and neither starts an election, nor ascends, nor takes
-- new entries.
import QuarkDB.RaftCluster
import QuarkDB.FollowerLog

namespace quarkdb

open RaftJournal (Good SameVote)
open RaftState (Sound Later Kept)

/-! ## Journals -/

/-- The journal took no entry and lost entries at its front only. -/
structure Trims (j j' : RaftJournal) : Prop where
  good : Good j'
  entries : ∀ i e, j'.db.entries i = some e → j.db.entries i = some e
  size_eq : j'.logSize = j.logSize
  start_le : j.logStart ≤ j'.logStart
  members_eq : j'.members = j.members
  epoch_eq : j'.membershipEpoch = j.membershipEpoch

theorem trims_self {j : RaftJournal} (h : Good j) : Trims j j :=
  ⟨h, fun _ _ => id, rfl, le_refl _, rfl, rfl⟩

theorem Trims.trans {j j' j'' : RaftJournal} (h : Trims j j') (h' : Trims j' j'') : Trims j j'' :=
  ⟨h'.good, fun i e he => h.entries i e (h'.entries i e he), h'.size_eq.trans h.size_eq,
    le_trans h.start_le h'.start_le, h'.members_eq.trans h.members_eq, h'.epoch_eq.trans h.epoch_eq⟩

theorem trims_setCommitIndex {j : RaftJournal} (h : Good j) (newIndex : Int) :
    Trims j ((RaftJournal.setCommitIndex newIndex).on j).2 := by
  have hg := (RaftJournal.good_setCommitIndex h newIndex .reopen).1
  rw [RaftJournal.setCommitIndex_on] at hg ⊢
  revert hg
  split
  · exact trims_self
  split
  · exact trims_self
  split
  · intro hg
    exact ⟨hg, fun _ _ => id, rfl, le_refl _, rfl, rfl⟩
  · exact trims_self

theorem trims_trimUntil {j : RaftJournal} (h : Good j) (newLogStart : Int) :
    Trims j ((RaftJournal.trimUntil newLogStart).on j).2 := by
  have hg := (RaftJournal.good_trimUntil h newLogStart).1
  rw [RaftJournal.trimUntil_on] at hg ⊢
  revert hg
  split
  · exact trims_self
  split
  · exact trims_self
  split
  · exact trims_self
  · rename_i h1 _ _
    intro hg
    refine ⟨hg, fun i e he => ?_, rfl, le_of_not_ge h1, rfl, rfl⟩
    dsimp only at he
    split at he
    · cases he
    · exact he

theorem trims_setCurrentTerm {j : RaftJournal} (h : Good j) (term : Int) (vote : RaftServer) :
    Trims j ((RaftJournal.setCurrentTerm term vote).on j).2 := by
  have hg := (RaftJournal.good_setCurrentTerm h term vote .reopen).1
  rw [RaftJournal.setCurrentTerm_on] at hg ⊢
  revert hg
  split
  · exact trims_self
  · intro hg
    exact ⟨hg, fun _ _ => id, rfl, le_refl _, rfl, rfl⟩

/-- What a tracker or the auto-committer does to the journal. -/
structure Commits (j j' : RaftJournal) : Prop where
  trims : Trims j j'
  same : SameVote j j'

theorem commits_self {j : RaftJournal} (h : Good j) : Commits j j := ⟨trims_self h, rfl, rfl⟩

theorem commits_setCommitIndex {j : RaftJournal} (h : Good j) (newIndex : Int) :
    Commits j ((RaftJournal.setCommitIndex newIndex).on j).2 :=
  ⟨trims_setCommitIndex h newIndex, (RaftJournal.good_setCommitIndex h newIndex .reopen).2.2⟩

namespace RaftCommitTracker

theorem commits_updateMatchIndex {j : RaftJournal} (h : Good j) (t : RaftCommitTracker)
    (target : RaftServer) (newMatchIndex : Int) :
    Commits j (t.updateMatchIndex j target newMatchIndex).2 := by
  unfold updateMatchIndex updated
  split
  · exact commits_self h
  unfold recalculateCommitIndex
  split
  · exact commits_self h
  split
  · unfold updateCommitIndex
    split
    · exact commits_self h
    · exact commits_setCommitIndex h _
  · exact commits_self h

theorem commits_runAutoCommit {j : RaftJournal} (h : Good j) : Commits j (runAutoCommit j) := by
  unfold runAutoCommit
  split
  · exact commits_setCommitIndex h _
  · exact commits_self h

end RaftCommitTracker

/-! ## Calm steps -/

/-- What holds between two states of a node when no election, ascent or new entry
lies between. -/
structure Calm (s s' : RaftState) : Prop where
  sound : Sound s'
  later : Later s s'
  leads : s'.status = .LEADER → s.status = .LEADER ∧ s'.term = s.term
  follows : s.status = .FOLLOWER → s'.status = .FOLLOWER
  journal : Trims s.journal s'.journal

theorem calm_self {s : RaftState} (h : Sound s) : Calm s s :=
  ⟨h, RaftState.later_self s, fun hl => ⟨hl, rfl⟩, id, trims_self h.journal_good⟩

theorem Calm.trans {s s' s'' : RaftState} (h : Calm s s') (h' : Calm s' s'') : Calm s s'' := by
  refine ⟨h'.sound, h.later.trans h'.later, fun hl => ?_, fun hf => h'.follows (h.follows hf),
    h.journal.trans h'.journal⟩
  obtain ⟨hl', ht'⟩ := h'.leads hl
  obtain ⟨hl, ht⟩ := h.leads hl'
  exact ⟨hl, ht'.trans ht⟩

/-- Only a follower may be without a name. -/
def NamedOrFollower (s : RaftState) : Prop := s.status = .FOLLOWER ∨ s.myself.empty = false

theorem Calm.named {s s' : RaftState} (h : Calm s s') (hn : NamedOrFollower s) :
    NamedOrFollower s' := by
  rcases hn with hf | hm
  · exact .inl (h.follows hf)
  · exact .inr (by rw [h.later.myself]; exact hm)

/-- A change of the journal alone. -/
theorem calm_journal {s : RaftState} (h : Sound s) {j : RaftJournal} (hj : Commits s.journal j) :
    Calm s { s with journal := j } := by
  have hk := RaftDispatcher.kept_journal h hj.trims.good hj.same
  exact ⟨hk.sound, hk.later, fun hl => ⟨hl, rfl⟩, id, hj.trims⟩

namespace RaftState

/-- What a node observes does not depend on who it is. -/
theorem observed_myself (s : RaftState) (me : RaftServer) (observedTerm : Int)
    (observedLeader : RaftServer) :
    ({ s with myself := me }.observed observedTerm observedLeader).2 =
      { (s.observed observedTerm observedLeader).2 with myself := me } := by
  unfold observed
  by_cases h1 : s.status = .SHUTDOWN
  · rw [if_pos h1, if_pos h1]
  rw [if_neg h1, if_neg h1]
  by_cases h2 : s.term < observedTerm
  · rw [if_pos h2, if_pos h2]
    unfold enterTerm updateStatus updateJournal
    split <;> rfl
  rw [if_neg h2, if_neg h2]
  by_cases h3 : observedTerm = s.term ∧ s.leader.empty
  · rw [if_pos h3, if_pos h3]
    split <;> rfl
  · rw [if_neg h3, if_neg h3]

/-- A node stays what it is in its term, or follows in a newer one. -/
theorem observed_status (s : RaftState) (observedTerm : Int) (observedLeader : RaftServer) :
    (s.observed observedTerm observedLeader).2.status = .FOLLOWER ∨
    ((s.observed observedTerm observedLeader).2.status = s.status ∧
      (s.observed observedTerm observedLeader).2.term = s.term) := by
  unfold observed
  split
  · exact .inr ⟨rfl, rfl⟩
  split
  · exact .inl (enterTerm_frame s observedTerm observedLeader).2.2
  split
  · split <;> exact .inr ⟨rfl, rfl⟩
  · exact .inr ⟨rfl, rfl⟩

theorem trims_updateJournal {s : RaftState} (h : Good s.journal) :
    Trims s.journal s.updateJournal.journal :=
  trims_setCurrentTerm h s.term s.votedFor

theorem trims_observed {s : RaftState} (h : Good s.journal) (observedTerm : Int)
    (observedLeader : RaftServer) :
    Trims s.journal (s.observed observedTerm observedLeader).2.journal := by
  unfold observed
  split
  · exact trims_self h
  split
  · have hj := (enterTerm_frame s observedTerm observedLeader).1
    have ht := trims_updateJournal (s := s.enterTerm observedTerm observedLeader)
      (by rw [hj]; exact h)
    rw [hj] at ht
    exact ht
  split
  · split
    · exact trims_updateJournal (s := { s with
        leader := observedLeader, votedFor := RaftServer.BLOCKED_VOTE }) h
    · exact trims_self h
  · exact trims_self h

theorem kept_observed_of_named {s : RaftState} (h : Sound s) (hn : NamedOrFollower s)
    (observedTerm : Int) (observedLeader : RaftServer) :
    Kept s (s.observed observedTerm observedLeader).2 := by
  rcases hn with hf | hme
  · -- A follower observes as one of any other name would.
    have hb : Sound { s with myself := RaftServer.BLOCKED_VOTE } := by
      refine ⟨h.journal_good, h.term_eq, h.vote_eq, ?_, fun hl => ?_⟩
      · rintro (hc | hl)
        · exact absurd (hf.symm.trans hc) (by decide)
        · exact absurd (hf.symm.trans hl) (by decide)
      · exact absurd (hf.symm.trans hl) (by decide)
    obtain ⟨k1, k2, k3⟩ := kept_observed hb rfl observedTerm observedLeader
    rw [observed_myself] at k1 k2 k3
    have hst : (s.observed observedTerm observedLeader).2.status = .FOLLOWER := by
      rcases observed_status s observedTerm observedLeader with hst | ⟨hst, -⟩
      · exact hst
      · exact hst.trans hf
    have hm : (s.observed observedTerm observedLeader).2.myself = s.myself := by
      have he := congrArg RaftState.myself (observed_myself s s.myself observedTerm observedLeader)
      exact he
    refine ⟨⟨k1.journal_good, k1.term_eq, k1.vote_eq, ?_, fun hl => ?_⟩,
      ⟨hm, k2.term, k2.vote, k2.candidate⟩, k3⟩
    · rintro (hc | hl)
      · exact absurd (hst.symm.trans hc) (by decide)
      · exact absurd (hst.symm.trans hl) (by decide)
    · exact absurd (hst.symm.trans hl) (by decide)
  · exact kept_observed h hme observedTerm observedLeader

theorem calm_observed {s : RaftState} (h : Sound s) (hn : NamedOrFollower s)
    (observedTerm : Int) (observedLeader : RaftServer) :
    Calm s (s.observed observedTerm observedLeader).2 := by
  have hk := kept_observed_of_named h hn observedTerm observedLeader
  have hst := observed_status s observedTerm observedLeader
  refine ⟨hk.sound, hk.later, fun hl => ?_, fun hf => ?_,
    trims_observed h.journal_good observedTerm observedLeader⟩
  · rcases hst with hf | ⟨he, ht⟩
    · exact absurd (hf.symm.trans hl) (by decide)
    · exact ⟨he.symm.trans hl, ht⟩
  · rcases hst with hf' | ⟨he, -⟩
    · exact hf'
    · exact he.trans hf

theorem calm_dropOut {s : RaftState} (h : Sound s) (forTerm : Int) :
    Calm s (s.dropOut forTerm).2 := by
  have hk := kept_dropOut h forTerm
  unfold dropOut at hk ⊢
  revert hk
  split
  · exact fun _ => calm_self h
  rename_i hc
  split
  · exact fun _ => calm_self h
  · intro hk
    have hst : s.status = .CANDIDATE := not_not.mp hc
    simp only [updateStatus, hst, ne_eq, reduceCtorEq, not_false_eq_true, if_true] at hk ⊢
    exact ⟨hk.sound, hk.later, (fun hl => by cases hl), fun _ => rfl, trims_self h.journal_good⟩

theorem calm_grantVote {s : RaftState} (h : Sound s) (forTerm : Int) (vote : RaftServer) :
    Calm s (s.grantVote forTerm vote).2 := by
  have hk := kept_grantVote h forTerm vote
  unfold grantVote at hk ⊢
  revert hk
  split
  · exact fun _ => calm_self h
  split
  · exact fun _ => calm_self h
  split
  · exact fun _ => calm_self h
  split
  · exact fun _ => calm_self h
  · intro hk
    exact ⟨hk.sound, hk.later, fun hl => ⟨hl, rfl⟩, id,
      trims_updateJournal (s := { s with votedFor := vote }) h.journal_good⟩

theorem calm_restart {s s' : RaftState} (h : Sound s)
    (hr : restartFrom s.journal.db s.myself = some s') : Calm s s' := by
  obtain ⟨h1, h2⟩ := sound_restart h hr
  unfold restartFrom at hr
  cases hj : RaftJournal.initializeJournal s.journal.db with
  | error e => simp [hj] at hr
  | ok j =>
    simp only [hj, Option.some.injEq] at hr
    subst hr
    obtain ⟨hj', -, -⟩ := RaftJournal.reopen_ok h.journal_good hj
    refine ⟨h1, h2, (fun hl => by cases hl), fun _ => rfl, ?_⟩
    show Trims s.journal j
    have hg := RaftJournal.good_reopen h.journal_good hj
    rw [hj'] at hg ⊢
    exact ⟨hg, fun _ _ => id, rfl, le_refl _, rfl, rfl⟩

end RaftState

/-! ## The handlers -/

namespace RaftDispatcher

/-- What entries that come in do to the journal: it commits if they are accepted, after it was
cut where it differs, and some of the entries were appended. -/
theorem receiveEntries_leaves {j : RaftJournal} (h : Good j) (lastApplied : Int)
    (req : RaftAppendEntriesRequest) :
    ∃ j2, Commits j2 ((receiveEntries lastApplied req).on j).2 ∧
      ((∀ err, ((receiveEntries lastApplied req).on j).1 ≠ .ok (true, err)) →
        ((receiveEntries lastApplied req).on j).2 = j2) ∧
      (j2 = j ∨ ∃ first j1 k, j.matchEntries req.prevIndex req.prevTerm = true ∧
        j.compareEntries (req.prevIndex + 1) req.entries = .ok first ∧
        first < req.prevIndex + 1 + req.entries.length ∧ Cut j first j1 ∧
        Appended j1 ((req.entries.drop (first - (req.prevIndex + 1)).toNat).take k) j2) := by
  have hdone : ∀ j2, Good j2 → Commits j2 ((finishReceive req.commitIndex).on j2).2 := by
    intro j2 hg
    have hc := commits_setCommitIndex hg (min (j2.logSize - 1) req.commitIndex)
    unfold finishReceive
    simp only [Call.on_bind, Call.on_get]
    generalize (RaftJournal.setCommitIndex (min (j2.logSize - 1) req.commitIndex)).on j2 = r at hc ⊢
    obtain ⟨r, j'⟩ := r
    cases r <;> exact hc
  have htrue : ∀ j2, Good j2 →
      ¬ ∀ err, ((finishReceive req.commitIndex).on j2).1 ≠ .ok (true, err) := by
    intro j2 hg hne
    rw [finishReceive_on hg] at hne
    exact hne [] rfl
  rcases receiveEntries_cases lastApplied req j with ⟨r, hr, -⟩ | ⟨hm, first, hf, hcase⟩
  · rw [hr]
    exact ⟨j, commits_self h, fun _ => rfl, .inl rfl⟩
  rcases hcase with ⟨-, hr⟩ | ⟨hlt, -, hov⟩
  · rw [hr]
    exact ⟨j, hdone j h, fun hne => absurd hne (htrue j h), .inl rfl⟩
  obtain ⟨hp1, hp2, -⟩ := matchEntries_true h hm
  obtain ⟨first', hf', -, c2, -, -, -⟩ := compareEntries_spec h req.entries hp1 hp2
  rw [hf] at hf'
  cases hf'
  rcases overwrite_cases h (req.entries.drop (first - (req.prevIndex + 1)).toNat) c2 with
    ⟨e, he⟩ | ⟨j1, r, j2, k, hcut, ho, happ, -⟩
  · rcases hov _ he.symm with ⟨r, hr, -⟩ | ⟨hok, -⟩
    · rw [hr]
      exact ⟨j, commits_self h, fun _ => rfl, .inl rfl⟩
    · cases hok
  · have hg := (happ.extends (hcut.cutOff h).good).good
    have hleft : j2 = j ∨ ∃ first j1 k, j.matchEntries req.prevIndex req.prevTerm = true ∧
        j.compareEntries (req.prevIndex + 1) req.entries = .ok first ∧
        first < req.prevIndex + 1 + req.entries.length ∧ Cut j first j1 ∧
        Appended j1 ((req.entries.drop (first - (req.prevIndex + 1)).toNat).take k) j2 :=
      .inr ⟨first, j1, k, hm, hf, by omega, hcut, happ⟩
    rcases hov _ ho.symm with ⟨r, hr, -⟩ | ⟨-, hr⟩
    · rw [hr]
      exact ⟨j2, commits_self hg, fun _ => rfl, hleft⟩
    · rw [hr]
      exact ⟨j2, hdone j2 hg, fun hne => absurd hne (htrue j2 hg), hleft⟩

end RaftDispatcher

/-! ## Elections -/

/-- A node that just voted for itself. -/
structure Candidacy (s s' : RaftState) (req : RaftVoteRequest) : Prop where
  kept : Kept s s'
  status : s'.status = .CANDIDATE
  vote : s'.votedFor = s.myself
  term : s'.term = req.term
  candidate : req.candidate = s.myself
  member : s.myself ∈ s.getNodes
  journal : Trims s.journal s'.journal

theorem RaftState.becomeCandidate_true {s : RaftState} {forTerm : Int}
    (h : (s.becomeCandidate forTerm).1 = true) : s.myself ∈ s.getNodes := by
  unfold becomeCandidate becomeCandidateWith at h
  split at h
  · cases h
  split at h
  · cases h
  split at h
  · cases h
  split at h
  · cases h
  split at h
  · cases h
  · exact not_not.mp ‹_›

theorem runForLeader_cases {s : RaftState} (h : Sound s) (hn : NamedOrFollower s) :
    (Calm s (runForLeader s).1 ∧ (runForLeader s).2 = none) ∨
    ∃ req, (runForLeader s).2 = some req ∧ Candidacy s (runForLeader s).1 req := by
  have ho := RaftState.calm_observed h hn (s.term + 1) {}
  have hok := RaftState.kept_observed_of_named h hn (s.term + 1) {}
  unfold runForLeader
  cases s.journal.fetch (s.journal.logSize - 1) with
  | none => exact .inl ⟨calm_self h, rfl⟩
  | some last =>
    dsimp only
    cases hobs : (s.observed (s.term + 1) {}).1 with
    | false => exact .inl ⟨ho, rfl⟩
    | true =>
      simp only [Bool.not_true, Bool.false_eq_true, if_false]
      generalize (s.observed (s.term + 1) {}).2 = s1 at ho hok ⊢
      cases hbc : (s1.becomeCandidate (s.term + 1)).1 with
      | false =>
        have hsame : (s1.becomeCandidate (s.term + 1)).2 = s1 := by
          rcases RaftState.becomeCandidateWith_cases ho.sound s1.getNodes (s.term + 1) with
            hr | ⟨-, -, -, hr⟩
          · exact congrArg Prod.snd hr
          · have ht : (s1.becomeCandidate (s.term + 1)).1 = true := congrArg Prod.fst hr
            rw [hbc] at ht
            cases ht
        exact .inl ⟨by simpa [hsame] using ho, rfl⟩
      | true =>
        have hmem := RaftState.becomeCandidate_true hbc
        have hkept := RaftState.kept_becomeCandidate ho.sound (s.term + 1)
        refine .inr ⟨{
          term := s.term + 1
          candidate := s.myself
          lastIndex := s.journal.logSize - 1
          lastTerm := last.term }, rfl, ?_⟩
        rcases RaftState.becomeCandidateWith_cases ho.sound s1.getNodes (s.term + 1) with
          hr | ⟨ht, -, -, hr⟩
        · have hf : (s1.becomeCandidate (s.term + 1)).1 = false := congrArg Prod.fst hr
          rw [hbc] at hf
          cases hf
        · have hr : s1.becomeCandidate (s.term + 1) = _ := hr
          rw [hr] at hkept
          have htr := RaftState.trims_updateJournal (s := { s1 with votedFor := s1.myself })
            ho.sound.journal_good
          simp only [hr, Bool.not_true, Bool.false_eq_true, if_false]
          refine ⟨RaftDispatcher.Kept_trans hok hkept, rfl, ho.later.myself, ht.symm, rfl, ?_,
            ho.journal.trans htr⟩
          have hnodes : s1.getNodes = s.getNodes := by
            unfold RaftState.getNodes
            rw [ho.journal.members_eq]
          rw [← hnodes, ← ho.later.myself]
          exact hmem

/-- A node that ascended: its marker is the last entry, and it leads the term that it was
a candidate for. -/
structure Ascent (s s' : RaftState) (term : Int) : Prop where
  sound : Sound s'
  later : Later s s'
  was_candidate : s.status = .CANDIDATE
  in_term : s.term = term
  vote : s.votedFor = s.myself
  status : s'.status = .LEADER
  term_eq : s'.term = s.term
  fits : s.journal.termOfLastEntry ≤ term
  journal : s'.journal = s.journal.withEntry (leadershipMarker term s.myself)

/-- The last step of an ascent: the marker is refused and nothing happens, or it is stored. -/
theorem RaftState.ascend_calm_or_ascent {s : RaftState} (h : Sound s) (forTerm : Int) :
    ((s.ascend forTerm).2 = s) ∨ Ascent s (s.ascend forTerm).2 forTerm := by
  have hk := kept_ascend h forTerm
  have hself : s.ascendWith s.getNodes s.journal.logSize forTerm = s.ascend forTerm := rfl
  rcases ascendWith_cases s s.getNodes s.journal.logSize forTerm with hr | ⟨ht, hst, -, hv, hr⟩
  · rw [← hself, hr]
    exact .inl rfl
  have hg := h.journal_good
  rcases RaftJournal.appendNoLock_cases hg.commit_lt_size (RaftJournal.size_nonneg hg)
    s.journal.logSize (quarkdb.leadershipMarker forTerm s.myself) with
    ⟨r, ha, hne⟩ | ⟨-, -, hl, j', hj, ha⟩
  · rcases hr r s.journal ha with ⟨-, hr⟩ | ⟨hok, -⟩
    · rw [← hself, hr]
      exact .inl rfl
    · exact absurd hok hne
  · rcases hr (.ok true) _ ha with ⟨hne, -⟩ | ⟨-, hr⟩
    · exact absurd rfl hne
    · obtain rfl : j' = s.journal := by
        cases hj with
        | other => rfl
        | foreign => rfl
        | members _ hu => cases hu
      rw [hself] at hr
      rw [hr] at hk
      refine .inr ⟨?_, ?_, hst, ht.symm, hv, ?_, ?_, hl, ?_⟩
      all_goals rw [hr]
      · exact hk.sound
      · exact hk.later

end quarkdb
