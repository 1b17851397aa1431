-- What the calls of a node leave of its vote and of its candidacy: who may have got the vote,
-- and where the logs of voters and candidates end.
import QuarkDB.NodeSteps

namespace quarkdb

open RaftJournal (Good SameVote)
open RaftState (Later Kept)

/-! ## Still steps -/

/-- The log ends in the same entry. -/
theorem Trims.last_eq {j j' : RaftJournal} (h : Trims j j') (hg : Good j) :
    j'.termOfLastEntry = j.termOfLastEntry := by
  obtain ⟨e, he, ht⟩ := hg.last
  obtain ⟨e', he', ht'⟩ := h.good.last
  have hsame := h.entries _ _ he'
  rw [h.size_eq, he] at hsame
  cases hsame
  exact ht'.symm.trans ht

/-- The node is up, and has voted or blocked its vote when it recognizes a leader. -/
structure Tended (s : RaftState) : Prop where
  up : s.status ≠ .SHUTDOWN
  voted : s.leader.empty = false → s.votedFor.empty = false

/-- A calm step that gives the vote to no one and starts no candidacy. The node recognizes no
leader, the one it had, or one that was named to it. -/
structure Quiet (Named : Int → RaftServer → Prop) (s s' : RaftState) : Prop where
  calm : Calm s s'
  heeds : s'.leader.empty = true ∨ (s'.term = s.term ∧ s'.leader = s.leader) ∨
    Named s'.term s'.leader
  ballot : (s'.term = s.term ∧ s'.votedFor = s.votedFor) ∨ s'.votedFor.empty = true ∨
    s'.votedFor = RaftServer.BLOCKED_VOTE
  stands : s'.status = .CANDIDATE → s'.leader.empty = true →
    s'.term = s.term ∧ s.status = .CANDIDATE ∧ s.leader.empty = true
  tended : Tended s → Tended s'

variable {Named : Int → RaftServer → Prop}

theorem quiet_self {s : RaftState} (h : RaftState.Sound s) : Quiet Named s s :=
  ⟨calm_self h, .inr (.inl ⟨rfl, rfl⟩), .inl ⟨rfl, rfl⟩, fun h1 h2 => ⟨rfl, h1, h2⟩, id⟩

theorem Quiet.trans {s s' s'' : RaftState} (h : Quiet Named s s') (h' : Quiet Named s' s'') :
    Quiet Named s s'' := by
  refine ⟨h.calm.trans h'.calm, ?_, ?_, fun h1 h2 => ?_, fun ht => h'.tended (h.tended ht)⟩
  · rcases h'.heeds with he | ⟨ht, hl⟩ | hv
    · exact .inl he
    · rw [ht, hl]
      exact h.heeds
    · exact .inr (.inr hv)
  · rcases h'.ballot with ⟨ht, hv⟩ | hv
    · rcases h.ballot with ⟨ht', hv'⟩ | hv'
      · exact .inl ⟨ht.trans ht', hv.trans hv'⟩
      · rw [hv]
        exact .inr hv'
    · exact .inr hv
  · obtain ⟨h3, h4, h5⟩ := h'.stands h1 h2
    obtain ⟨h6, h7, h8⟩ := h.stands h4 h5
    exact ⟨h3.trans h6, h7, h8⟩

/-- A change of the journal alone. -/
theorem quiet_journal {s : RaftState} (h : RaftState.Sound s) {j : RaftJournal}
    (hj : Commits s.journal j) : Quiet Named s { s with journal := j } :=
  ⟨calm_journal h hj, .inr (.inl ⟨rfl, rfl⟩), .inl ⟨rfl, rfl⟩, fun h1 h2 => ⟨rfl, h1, h2⟩,
    fun ht => ⟨ht.up, ht.voted⟩⟩

/-- A quiet step that commits nothing. -/
structure Still (Named : Int → RaftServer → Prop) (s s' : RaftState) : Prop where
  quiet : Quiet Named s s'
  commit_eq : s'.journal.commitIndex = s.journal.commitIndex

theorem still_self {s : RaftState} (h : RaftState.Sound s) : Still Named s s := ⟨quiet_self h, rfl⟩

theorem Still.trans {s s' s'' : RaftState} (h : Still Named s s') (h' : Still Named s' s'') :
    Still Named s s'' :=
  ⟨h.quiet.trans h'.quiet, h'.commit_eq.trans h.commit_eq⟩

namespace RaftState

@[simp] theorem updateJournal_commitIndex (s : RaftState) :
    s.updateJournal.journal.commitIndex = s.journal.commitIndex := by
  unfold updateJournal
  rw [RaftJournal.setCurrentTerm_on]
  split <;> rfl

theorem still_observed {s : RaftState} (h : RaftState.Sound s) (hn : NamedOrFollower s)
    (observedTerm : Int) (observedLeader : RaftServer)
    (hl : observedLeader.empty = true ∨ Named observedTerm observedLeader) :
    Still Named s (s.observed observedTerm observedLeader).2 := by
  have hcalm := calm_observed h hn observedTerm observedLeader
  have hself : Still Named s s := still_self h
  unfold observed at hcalm ⊢
  by_cases h1 : s.status = .SHUTDOWN
  · rw [if_pos h1]
    exact hself
  rw [if_neg h1] at hcalm ⊢
  by_cases h2 : s.term < observedTerm
  · -- A newer term: the vote is free again, or blocked.
    rw [if_pos h2] at hcalm ⊢
    obtain ⟨hj, -, hst⟩ := enterTerm_frame s observedTerm observedLeader
    have hst' : (s.enterTerm observedTerm observedLeader).updateJournal.status = .FOLLOWER := hst
    have hv : (s.enterTerm observedTerm observedLeader).updateJournal.votedFor =
        if !observedLeader.empty then RaftServer.BLOCKED_VOTE else {} := rfl
    refine ⟨⟨hcalm, hl.imp id .inr, .inr ?_, fun h3 => ?_,
      fun _ => ⟨by rw [hst']; decide, fun hl => ?_⟩⟩, by rw [updateJournal_commitIndex, hj]⟩
    · rw [hv]
      cases observedLeader.empty with
      | false => exact .inr rfl
      | true => exact .inl rfl
    · rw [hst'] at h3
      cases h3
    · have hl : observedLeader.empty = false := hl
      rw [hv, hl]
      rfl
  rw [if_neg h2] at hcalm ⊢
  by_cases h3 : observedTerm = s.term ∧ s.leader.empty
  · rw [if_pos h3] at hcalm ⊢
    rw [h3.1] at hl
    by_cases h4 : !observedLeader.empty ∧ s.votedFor.empty
    · rw [if_pos h4] at hcalm ⊢
      have hne : observedLeader.empty = false := by simpa using h4.1
      refine ⟨⟨hcalm, hl.imp id .inr, .inr (.inr rfl), fun _ h6 => ?_,
        fun ht => ⟨ht.up, fun _ => rfl⟩⟩, updateJournal_commitIndex _⟩
      have h6 : observedLeader.empty = true := h6
      rw [hne] at h6
      cases h6
    · rw [if_neg h4] at hcalm ⊢
      refine ⟨⟨hcalm, hl.imp id .inr, .inl ⟨rfl, rfl⟩, fun h5 _ => ⟨rfl, h5, h3.2⟩,
        fun ht => ⟨ht.up, fun hl => ?_⟩⟩, rfl⟩
      have hl : observedLeader.empty = false := hl
      simpa [hl] using h4
  · rw [if_neg h3]
    exact hself

theorem still_dropOut {s : RaftState} (h : RaftState.Sound s) (forTerm : Int) :
    Still Named s (s.dropOut forTerm).2 := by
  have hcalm := calm_dropOut h forTerm
  unfold dropOut at hcalm ⊢
  by_cases h1 : s.status ≠ .CANDIDATE
  · rw [if_pos h1]
    exact still_self h
  rw [if_neg h1] at hcalm ⊢
  by_cases h2 : forTerm ≠ s.term
  · rw [if_pos h2]
    exact still_self h
  rw [if_neg h2] at hcalm ⊢
  have hst : s.status = .CANDIDATE := not_not.mp h1
  simp only [updateStatus, hst, ne_eq, reduceCtorEq, not_false_eq_true, if_true] at hcalm ⊢
  exact ⟨⟨hcalm, .inr (.inl ⟨rfl, rfl⟩), .inl ⟨rfl, rfl⟩, (fun h3 => by cases h3),
    fun ht => ⟨by simp, ht.voted⟩⟩, rfl⟩

theorem still_restart {s s' : RaftState} (h : RaftState.Sound s)
    (hr : restartFrom s.journal.db s.myself = some s') : Still Named s s' := by
  have hcalm := calm_restart h hr
  unfold restartFrom at hr
  cases hj : RaftJournal.initializeJournal s.journal.db with
  | error e => simp [hj] at hr
  | ok j =>
    simp only [hj, Option.some.injEq] at hr
    subst hr
    obtain ⟨hj', hbytes, hv⟩ := RaftJournal.reopen_ok h.journal_good hj
    refine ⟨⟨hcalm, .inl rfl, ?_, (fun h3 => by cases h3),
      fun _ => ⟨by simp [ofJournal], fun hl => ?_⟩⟩, by rw [hj']; rfl⟩
    · cases he : s.journal.votedFor.empty with
      | false =>
        refine .inl ⟨?_, (hv he).trans h.vote_eq⟩
        show j.currentTerm = s.term
        rw [hj']
        exact h.term_eq
      | true =>
        refine .inr (.inl ?_)
        show j.votedFor.empty = true
        have hnone : s.journal.votedFor.hostname = [] := by simpa [RaftServer.empty] using he
        have hempty : j.votedFor.toBytes = [] := by
          rw [hbytes, RaftServer.toBytes, if_pos hnone]
        by_contra hne
        have hhost : j.votedFor.hostname ≠ [] := by simpa [RaftServer.empty] using hne
        rw [RaftServer.toBytes, if_neg hhost] at hempty
        simp at hempty
    · cases hl

end RaftState

namespace RaftDispatcher

theorem still_heartbeat {s : RaftState} (h : RaftState.Sound s) (hn : NamedOrFollower s)
    (req : RaftHeartbeatRequest) (hl : Named req.term req.leader) :
    Still Named s ((heartbeat req).on s).2 := by
  rw [heartbeat_on]
  split
  · exact still_self h
  · exact RaftState.still_observed h hn req.term req.leader (.inr hl)

end RaftDispatcher

theorem RaftElection.still_observeTerms {s : RaftState} (h : RaftState.Sound s)
    (hn : NamedOrFollower s) (contents : List SingleVote) :
    Still Named s (observeTerms s contents) := by
  unfold observeTerms
  induction contents generalizing s with
  | nil => exact still_self h
  | cons sv rest ih =>
    rw [List.foldl_cons]
    cases sv with
    | vote resp =>
      have ho : Still Named s _ := RaftState.still_observed h hn resp.term {} (.inl rfl)
      exact ho.trans (ih ho.quiet.calm.sound (ho.quiet.calm.named hn))
    | netError => exact ih h hn
    | parseError => exact ih h hn

namespace RaftReplicaTracker

theorem still_retrieve (t : RaftReplicaTracker) {s : RaftState} (h : RaftState.Sound s)
    (hn : NamedOrFollower s) (snapshotTerm : Int) (item : PendingResponse)
    (resp : RaftAppendEntriesResponse) :
    Still Named s (t.retrieve s snapshotTerm item resp).state := by
  have ho : Still Named s _ := RaftState.still_observed h hn resp.term {} (.inl rfl)
  unfold retrieve
  dsimp only
  split
  · exact ho
  split
  · exact ho
  split <;> exact ho

theorem still_acknowledge (t : RaftReplicaTracker) {s : RaftState} (h : RaftState.Sound s)
    (hn : NamedOrFollower s) (snapshotTerm : Int) (item : PendingResponse)
    (resp : RaftAppendEntriesResponse) :
    Still Named s (t.acknowledge s snapshotTerm item resp).state := by
  have ho : Still Named s _ := RaftState.still_observed h hn resp.term {} (.inl rfl)
  unfold acknowledge
  dsimp only
  split <;> exact ho

/-- What a tracker sends, if it sends anything. -/
def Sends (s : RaftState) (snapshotTerm : Int) (p : Pushed) : Prop :=
  ∀ req ∈ p.sent, ∃ nextIndex payloadLimit lastTerm,
    sendPayload s snapshotTerm nextIndex payloadLimit = some (req, lastTerm)

theorem still_pushConservative (t : RaftReplicaTracker) {s : RaftState} (h : RaftState.Sound s)
    (hn : NamedOrFollower s) (snapshotTerm : Int) (request : Nat) :
    Still Named s (t.pushConservative s snapshotTerm request).state ∧
      Sends s snapshotTerm (t.pushConservative s snapshotTerm request) := by
  unfold pushConservative Sends
  split
  · exact ⟨still_self h, by simp⟩
  split
  · exact ⟨still_self h, by simp⟩
  dsimp only
  generalize (if t.nextIndex ≤ s.journal.logStart then s.journal.logSize else t.nextIndex) =
    nextIndex
  cases hp : sendPayload s snapshotTerm nextIndex t.payloadLimit with
  | none => exact ⟨RaftState.still_observed h hn _ _ (.inl rfl), by simp⟩
  | some p =>
    refine ⟨still_self h, ?_⟩
    rintro req ⟨⟩
    exact ⟨nextIndex, t.payloadLimit, p.2, hp⟩

theorem still_pushStreaming (t : RaftReplicaTracker) {s : RaftState} (h : RaftState.Sound s)
    (hn : NamedOrFollower s) (snapshotTerm : Int) (request : Nat) :
    Still Named s (t.pushStreaming s snapshotTerm request).state ∧
      Sends s snapshotTerm (t.pushStreaming s snapshotTerm request) := by
  unfold pushStreaming Sends
  cases hp : sendPayload s snapshotTerm t.nextIndex 512 with
  | none => exact ⟨RaftState.still_observed h hn _ _ (.inl rfl), by simp⟩
  | some p =>
    refine ⟨still_self h, ?_⟩
    rintro req ⟨⟩
    exact ⟨t.nextIndex, 512, p.2, hp⟩

end RaftReplicaTracker

theorem RaftNode.quiet_hear (n : RaftNode) (r : RaftReplicator)
    (target : RaftServer) (heard : RaftReplicaTracker.Heard)
    (hc : Quiet Named n.state heard.state) :
    Quiet Named n.state (n.hear r target heard).state ∧
      (n.hear r target heard).election = n.election := by
  unfold hear
  cases heard.matchIndex with
  | none => exact ⟨hc, rfl⟩
  | some index =>
    have hj := RaftCommitTracker.commits_updateMatchIndex hc.calm.sound.journal_good
      n.commitTracker target index
    exact ⟨hc.trans (quiet_journal hc.calm.sound hj), rfl⟩

/-! ## Votes -/

/-- A node that gives its vote to a candidate whose log is not behind its own: it had not voted
in this term, and recognized no leader. -/
structure Grants (s s' : RaftState) (req : RaftVoteRequest) : Prop where
  calm : Calm s s'
  commit_eq : s'.journal.commitIndex = s.journal.commitIndex
  status : s'.status = .FOLLOWER
  term : s'.term = req.term
  vote : s'.votedFor = req.candidate
  leaderless : s'.leader.empty = true
  free : s.term = req.term → s.votedFor.empty = true
  ahead : s.journal.termOfLastEntry < req.lastTerm ∨
    s.journal.termOfLastEntry = req.lastTerm ∧ s.journal.logSize - 1 ≤ req.lastIndex

namespace RaftDispatcher

theorem moreUpToDate_false {j : RaftJournal} (h : Good j) {req : RaftVoteRequest}
    (hm : moreUpToDate j req = false) : j.termOfLastEntry < req.lastTerm ∨
      j.termOfLastEntry = req.lastTerm ∧ j.logSize - 1 ≤ req.lastIndex := by
  obtain ⟨e, he, ht⟩ := h.last
  unfold moreUpToDate RaftJournal.fetch at hm
  simp only [he, Bool.or_eq_false_iff, decide_eq_false_iff_not, Bool.and_eq_false_imp,
    decide_eq_true_eq, ht] at hm
  obtain ⟨h1, h2⟩ := hm
  by_cases heq : req.lastTerm = j.termOfLastEntry
  · exact .inr ⟨heq.symm, not_lt.mp (h2 heq)⟩
  · exact .inl (lt_of_le_of_ne (not_lt.mp h1) (Ne.symm heq))

theorem refuses_passed {s : RaftState} {req : RaftVoteRequest}
    (h : refuses s req false = .ok none) :
    s.term = req.term ∧ moreUpToDate s.journal req = false := by
  unfold refuses at h
  split at h
  · cases h
  split at h
  · cases h
  split at h
  · cases h
  rename_i hterm
  split at h
  · cases h
  split at h
  · cases h
  · rename_i hm
    exact ⟨by simpa using hterm, by simpa using hm⟩

/-- What a request for a vote leaves: no vote is given, or it goes to the candidate. -/
theorem requestVote_still_or_grants {s : RaftState} (h : RaftState.Sound s) (hn : NamedOrFollower s)
    (req : RaftVoteRequest) :
    (Still Named s (requestVote s req false).2 ∧
      ∀ resp, (requestVote s req false).1 = .ok resp → resp.vote ≠ .GRANTED) ∨
    Grants s (requestVote s req false).2 req := by
  have ho : Still Named s _ := RaftState.still_observed h hn req.term {} (.inl rfl)
  have hs1 := ho.quiet.calm.sound
  rcases (requestVote_cases s req).2 with ⟨r, hr, hne⟩ | ⟨r, hr, hne⟩ | ⟨hpass, vote, hr, hg⟩
  · rw [hr]
    exact .inl ⟨still_self h, hne⟩
  · rw [hr]
    exact .inl ⟨ho, hne⟩
  · rw [hr]
    obtain ⟨hterm, hup⟩ := refuses_passed hpass
    have hcalm := ho.quiet.calm.trans (RaftState.calm_grantVote hs1 req.term req.candidate)
    have hlast := ho.quiet.calm.journal.last_eq h.journal_good
    have hsize := ho.quiet.calm.journal.size_eq
    have hahead := moreUpToDate_false hs1.journal_good hup
    rw [hlast, hsize] at hahead
    have hfree : s.term = req.term → s.votedFor.empty = false →
        (s.observed req.term {}).2.votedFor.empty = false := by
      intro ht hv
      rw [ho.quiet.calm.later.vote (by omega) hv]
      exact hv
    have hc := ho.commit_eq
    generalize (s.observed req.term {}).2 = s1 at *
    unfold RaftState.grantVote at hcalm hg ⊢
    by_cases h1 : s1.status ≠ .FOLLOWER
    · simp only [if_pos h1] at hg ⊢
      exact .inl ⟨ho, fun resp hresp hv => by cases hresp; exact absurd (hg hv) (by simp)⟩
    by_cases h2 : req.term ≠ s1.term
    · exact absurd hterm.symm h2
    by_cases h3 : (!s1.leader.empty) = true
    · simp only [if_neg h1, if_neg h2, if_pos h3] at hg ⊢
      exact .inl ⟨ho, fun resp hresp hv => by cases hresp; exact absurd (hg hv) (by simp)⟩
    by_cases h4 : (!s1.votedFor.empty) = true
    · simp only [if_neg h1, if_neg h2, if_neg h3, if_pos h4] at hg ⊢
      exact .inl ⟨ho, fun resp hresp hv => by cases hresp; exact absurd (hg hv) (by simp)⟩
    · simp only [if_neg h1, if_neg h2, if_neg h3, if_neg h4] at hcalm ⊢
      refine .inr ⟨hcalm, ?_, not_not.mp h1, hterm, rfl, ?_, fun ht => ?_, hahead⟩
      · rw [RaftState.updateJournal_commitIndex]
        exact hc
      · show s1.leader.empty = true
        simpa using h3
      · by_contra hne
        rw [hfree ht (by simpa using hne)] at h4
        exact h4 rfl

end RaftDispatcher

/-! ## Candidates -/

/-- A candidacy with what its request says: the next term, and the end of the log. -/
structure Campaign (s s' : RaftState) (req : RaftVoteRequest) : Prop where
  candidacy : Candidacy s s' req
  next : req.term = s.term + 1
  lastIndex : req.lastIndex = s.journal.logSize - 1
  lastTerm : req.lastTerm = s.journal.termOfLastEntry
  commit_eq : s'.journal.commitIndex = s.journal.commitIndex
  leaderless : s'.leader.empty = true

theorem RaftState.becomeCandidate_leaderless {s : RaftState} {forTerm : Int}
    (h : (s.becomeCandidate forTerm).1 = true) : s.leader.empty = true := by
  unfold becomeCandidate becomeCandidateWith at h
  split at h
  · cases h
  split at h
  · cases h
  split at h
  · cases h
  · rename_i hl
    simpa using hl

theorem RaftState.ascend_leaderless {s : RaftState} {forTerm : Int}
    (h : (s.ascend forTerm).2 ≠ s) : s.leader.empty = true := by
  unfold ascend ascendWith at h
  split at h
  · exact absurd rfl h
  split at h
  · exact absurd rfl h
  split at h
  · exact absurd rfl h
  · rename_i hl
    simpa using hl

theorem runForLeader_still_or_stands {s : RaftState} (h : RaftState.Sound s)
    (hn : NamedOrFollower s) :
    (Still Named s (runForLeader s).1 ∧ (runForLeader s).2 = none) ∨
    ∃ req, (runForLeader s).2 = some req ∧ Campaign s (runForLeader s).1 req := by
  have ho : Still Named s _ := RaftState.still_observed h hn (s.term + 1) {} (.inl rfl)
  obtain ⟨last, hlast, hterm⟩ := h.journal_good.last
  have hf : s.journal.fetch (s.journal.logSize - 1) = some last := hlast
  have hcases := runForLeader_cases h hn
  unfold runForLeader at hcases ⊢
  rw [hf] at hcases ⊢
  dsimp only at hcases ⊢
  cases hobs : (s.observed (s.term + 1) {}).1 with
  | false => exact .inl ⟨ho, rfl⟩
  | true =>
    simp only [hobs, Bool.not_true, Bool.false_eq_true, if_false] at hcases ⊢
    generalize (s.observed (s.term + 1) {}).2 = s1 at ho hcases ⊢
    rcases RaftState.becomeCandidateWith_cases ho.quiet.calm.sound s1.getNodes (s.term + 1) with
      hr | ⟨-, -, -, hr⟩
    · have hr : s1.becomeCandidate (s.term + 1) = (false, s1) := hr
      rw [hr]
      exact .inl ⟨ho, rfl⟩
    · have hr : s1.becomeCandidate (s.term + 1) = _ := hr
      have hleader : s1.leader.empty = true :=
        RaftState.becomeCandidate_leaderless (congrArg Prod.fst hr)
      rw [hr] at hcases ⊢
      simp only [Bool.not_true, Bool.false_eq_true, if_false] at hcases ⊢
      rcases hcases with ⟨-, hnone⟩ | ⟨req, hreq, hcand⟩
      · cases hnone
      · refine .inr ⟨req, hreq, hcand, ?_, ?_, ?_, ?_, ?_⟩
        all_goals cases hreq
        · rfl
        · rfl
        · exact hterm
        · rw [← ho.commit_eq]
          exact RaftState.updateJournal_commitIndex { s1 with votedFor := s1.myself }
        · exact hleader

/-- An ascent, with what the candidate was before its votes were counted. -/
structure Ascends (s s' : RaftState) (term : Int) : Prop where
  was_candidate : s.status = .CANDIDATE
  leaderless : s.leader.empty = true
  in_term : s.term = term
  commit_eq : s'.journal.commitIndex = s.journal.commitIndex
  tended : s.myself.empty = false → Tended s'

/-- The end of an election round. -/
theorem RaftElection.conclude_still_or_ascends {s : RaftState} (h : RaftState.Sound s)
    (hn : NamedOrFollower s) (el : RaftElection) :
    Still Named s (el.conclude s) ∨
    ∃ s0, Calm s s0 ∧ RaftVoteRegistry.determineOutcome false el.contents = .kElected ∧
      Ascent s0 (el.conclude s) el.req.term ∧ Ascends s (el.conclude s) el.req.term := by
  have ho : Still Named s _ := still_observeTerms h hn el.contents
  unfold conclude
  dsimp only
  generalize observeTerms s el.contents = s0 at ho ⊢
  have hs0 := ho.quiet.calm.sound
  have hdrop := ho.trans (RaftState.still_dropOut hs0 el.req.term)
  cases hout : RaftVoteRegistry.determineOutcome false el.contents with
  | kNotElected => exact .inl hdrop
  | kVetoed => exact .inl hdrop
  | kElected =>
    dsimp only
    rcases RaftState.ascend_calm_or_ascent hs0 el.req.term with hsame | hasc
    · -- No ascent: the candidacy is dropped if the state refused it.
      split
      · rename_i s1 he
        have hs1 : s1 = s0 := (congrArg Prod.snd he).symm.trans hsame
        rw [hs1]
        exact .inl hdrop
      · rename_i r s1 hne he
        have hs1 : s1 = s0 := (congrArg Prod.snd he).symm.trans hsame
        rw [hs1]
        exact .inl ho
    · have hne : (s0.ascend el.req.term).2 ≠ s0 := by
        intro he
        have hst := hasc.status
        rw [he, hasc.was_candidate] at hst
        cases hst
      have hleader := RaftState.ascend_leaderless hne
      obtain ⟨ht, hc, hl⟩ := ho.quiet.stands hasc.was_candidate hleader
      have hasc' : ∀ s1, (s0.ascend el.req.term).2 = s1 →
          Ascent s0 s1 el.req.term ∧ Ascends s s1 el.req.term := by
        rintro s1 rfl
        refine ⟨hasc, hc, hl, ht.symm.trans hasc.in_term, ?_, fun hme => ⟨?_, fun _ => ?_⟩⟩
        · rw [hasc.journal]
          exact ho.commit_eq
        · rw [hasc.status]
          decide
        · rw [hasc.sound.voted_self (.inr hasc.status), hasc.later.myself,
            ho.quiet.calm.later.myself]
          exact hme
      split
      · rename_i s1 he
        obtain ⟨h1, h2⟩ := hasc' s1 (congrArg Prod.snd he)
        have hst : s1.status ≠ .CANDIDATE := by rw [h1.status]; decide
        unfold RaftState.dropOut
        rw [if_pos hst]
        exact .inr ⟨s0, ho.quiet.calm, rfl, h1, h2⟩
      · rename_i r s1 hne he
        obtain ⟨h1, h2⟩ := hasc' s1 (congrArg Prod.snd he)
        exact .inr ⟨s0, ho.quiet.calm, rfl, h1, h2⟩

end quarkdb
