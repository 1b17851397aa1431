-- The director of a raft node: the thread that follows, leads, and runs for leader. Between its
-- steps the other threads use the state and the journal; still it never finds itself a candidate
-- but in its own election.
import QuarkDB.RaftDispatcher
import Mathlib.Logic.Relation

namespace quarkdb

namespace RaftDirector

open RaftState (Sound Kept)
open RaftStatus

/-! ## The steps of the director -/

/-- Where the director stands. -/
inductive Phase
  /-- `main` is about to take its snapshot. -/
  | main
  | returned
  | leaderLoop (snapshot : RaftStateSnapshot)
  | followerLoop (snapshot : RaftStateSnapshot)
  /-- `followerLoop` after its wait. -/
  | timeout (snapshot : RaftStateSnapshot)
  | runForLeader (preVote : Bool)
  /-- `runForLeader` with its snapshot, up to the end of the pre-vote. -/
  | voteRequest (preVote : Bool) (snapshot : RaftStateSnapshot)
  | observe (term : Int)
  | becomeCandidate (term : Int)
  /-- `RaftElection::perform`. -/
  | perform (term : Int)
  | registerVotes (term : Int)
  | ascend (term : Int)
  | dropOut (term : Int)
  /-- `runForLeader` has returned. -/
  | ran
  /-- An exception has left `main`. -/
  | failed (fault : Fault)
  deriving DecidableEq

/-- One turn of the loop of `main`. -/
def main (snapshot : RaftStateSnapshot) (myself : RaftServer) : Phase :=
  if snapshot.status = SHUTDOWN then .returned
  else if snapshot.status = FOLLOWER then .followerLoop snapshot
  else if snapshot.status = LEADER then
    if snapshot.leader = myself then .leaderLoop snapshot
    else .failed (.assertion "snapshot->leader == state.getMyself()")
  else .failed (.thrown "should never happen")

/-- Does `RaftElection::perform` go on to ask for votes? -/
def standsFor (snapshot : RaftStateSnapshot) (term : Int) : Bool :=
  term = snapshot.term && snapshot.leader.empty && snapshot.status = CANDIDATE

/-- A step of the director. What the network, the clocks and the sanity check say is left open,
and whether a snapshot is still the current one: a new snapshot can be equal to the old. -/
inductive DirectorStep : RaftState → Phase → RaftState → Phase → Prop
  | main (s) : DirectorStep s .main s (main s.getSnapshot s.myself)
  /-- The snapshot is not the current one any more. -/
  | leaderLoop_ends (s snapshot) : DirectorStep s (.leaderLoop snapshot) s .main
  | leaderLoop_insane (s snapshot) :
    DirectorStep s (.leaderLoop snapshot) s (.failed (.assertion "checkBasicSanity()"))
  | lease_expires (s snapshot) :
    DirectorStep s (.leaderLoop snapshot) (s.observed (snapshot.term + 1) {}).2 .main
  | followerLoop_ends (s snapshot)
    (h : snapshot.term ≠ s.getSnapshot.term ∨ snapshot.status ≠ s.getSnapshot.status) :
    DirectorStep s (.followerLoop snapshot) s .main
  | followerLoop_waits (s snapshot)
    (h : ¬ (snapshot.term ≠ s.getSnapshot.term ∨ snapshot.status ≠ s.getSnapshot.status)) :
    DirectorStep s (.followerLoop snapshot) s (.timeout snapshot)
  | keeps_waiting (s snapshot) : DirectorStep s (.timeout snapshot) s (.followerLoop snapshot)
  | times_out (s snapshot preVote) (h : s.myself ∈ s.getNodes) :
    DirectorStep s (.timeout snapshot) s (.runForLeader preVote)
  | insane (s preVote) : DirectorStep s (.runForLeader preVote) s .ran
  | runForLeader (s preVote) :
    DirectorStep s (.runForLeader preVote) s (.voteRequest preVote s.getSnapshot)
  | no_last_entry (s preVote snapshot) : DirectorStep s (.voteRequest preVote snapshot) s .ran
  /-- The pre-vote is lost, or the state has progressed since. -/
  | preVote_lost (s snapshot) : DirectorStep s (.voteRequest true snapshot) s .ran
  | preVote_over (s preVote snapshot) :
    DirectorStep s (.voteRequest preVote snapshot) s (.observe (snapshot.term + 1))
  | observe (s term) :
    DirectorStep s (.observe term) (s.observed term {}).2
      (if (s.observed term {}).1 then .becomeCandidate term else .ran)
  | becomeCandidate (s term nodes) :
    DirectorStep s (.becomeCandidate term) (s.becomeCandidateWith nodes term).2
      (if (s.becomeCandidateWith nodes term).1 then .perform term else .ran)
  | perform (s term) :
    DirectorStep s (.perform term) s
      (if standsFor s.getSnapshot term then .registerVotes term else .dropOut term)
  /-- `observeTermsAndLeases`, of one answer. -/
  | observe_answer (s term answered) :
    DirectorStep s (.registerVotes term) (s.observed answered {}).2 (.registerVotes term)
  | not_elected (s term) : DirectorStep s (.registerVotes term) s (.dropOut term)
  | elected (s term) : DirectorStep s (.registerVotes term) s (.ascend term)
  | ascends (s term nodes localIndex) (h : (s.ascendWith nodes localIndex term).1 = .ok true) :
    DirectorStep s (.ascend term) (s.ascendWith nodes localIndex term).2 .ran
  | not_ascended (s term nodes localIndex)
    (h : (s.ascendWith nodes localIndex term).1 = .ok false) :
    DirectorStep s (.ascend term) (s.ascendWith nodes localIndex term).2 (.dropOut term)
  | ascend_throws (s term nodes localIndex) (fault)
    (h : (s.ascendWith nodes localIndex term).1 = .error fault) :
    DirectorStep s (.ascend term) (s.ascendWith nodes localIndex term).2 (.failed fault)
  | dropOut (s term) : DirectorStep s (.dropOut term) (s.dropOut term).2 .ran
  | back_to_main (s) : DirectorStep s .ran s .main

/-! ## The steps of the others -/

/-- What another thread does: a call on the state or on the journal, or all that a request of
another node comes to. -/
inductive OtherStep : RaftState → RaftState → Prop
  | observed (s) (term : Int) (leader : RaftServer) : OtherStep s (s.observed term leader).2
  | grantVote (s) (term : Int) (vote : RaftServer) : OtherStep s (s.grantVote term vote).2
  | shutdown (s) : OtherStep s s.shutdown
  | journal (s) (c : RaftJournal.JournalCall) (h : RaftJournal.KeepsTerm c) :
    OtherStep s { s with journal := s.journal.after c }
  | heartbeat (s) (req : RaftHeartbeatRequest) :
    OtherStep s ((RaftDispatcher.heartbeat req).on s).2
  | appendEntries (s) (lastApplied : Int) (req : RaftAppendEntriesRequest) :
    OtherStep s ((RaftDispatcher.appendEntries lastApplied req).on s).2
  | requestVote (s) (req : RaftVoteRequest) (preVote : Bool) :
    OtherStep s (RaftDispatcher.requestVote s req preVote).2

/-- A node and where its director stands. -/
structure Running where
  node : RaftState
  phase : Phase

inductive Running.Step : Running → Running → Prop
  | director {s s' : RaftState} {phase phase' : Phase} (h : DirectorStep s phase s' phase') :
    Step ⟨s, phase⟩ ⟨s', phase'⟩
  | other {s s' : RaftState} {phase : Phase} (h : OtherStep s s') : Step ⟨s, phase⟩ ⟨s', phase⟩

/-- The director of a node that comes up with this journal, after any steps. -/
def Reaches (journal : RaftJournal) (me : RaftServer) : Running → Prop :=
  Relation.ReflTransGen Running.Step ⟨RaftState.ofJournal journal me, .main⟩

/-! ## A candidate is made by the director alone -/

/-- A candidate after the step was one before it, for the same term. -/
def MakesNoCandidate (s s' : RaftState) : Prop :=
  s'.status = CANDIDATE → s.status = CANDIDATE ∧ s'.term = s.term

section

variable {s s' s'' : RaftState}

theorem makesNoCandidate_of_eq (h : s'.status = s.status) (ht : s'.term = s.term) :
    MakesNoCandidate s s' := fun hc => ⟨h ▸ hc, ht⟩

theorem makesNoCandidate_of_ne (h : s'.status ≠ CANDIDATE) : MakesNoCandidate s s' :=
  fun hc => absurd hc h

theorem MakesNoCandidate.trans (h : MakesNoCandidate s s') (h' : MakesNoCandidate s' s'') :
    MakesNoCandidate s s'' := by
  intro hc
  obtain ⟨hc', ht'⟩ := h' hc
  obtain ⟨hc, ht⟩ := h hc'
  exact ⟨hc, ht'.trans ht⟩

theorem updateStatus_status (s : RaftState) (newstatus : RaftStatus) :
    (s.updateStatus newstatus).status = newstatus := by
  unfold RaftState.updateStatus
  split
  · rfl
  · rename_i h
    exact not_not.mp h

theorem observed_makesNoCandidate (s : RaftState) (term : Int) (leader : RaftServer) :
    MakesNoCandidate s (s.observed term leader).2 := by
  unfold RaftState.observed
  split
  · exact makesNoCandidate_of_eq rfl rfl
  split
  · -- In a newer term the node is a follower.
    have hst : (s.enterTerm term leader).status = FOLLOWER := updateStatus_status s FOLLOWER
    have hst' : (s.enterTerm term leader).updateJournal.status = FOLLOWER := hst
    exact makesNoCandidate_of_ne (by rw [hst']; decide)
  split
  · split <;> exact makesNoCandidate_of_eq rfl rfl
  · exact makesNoCandidate_of_eq rfl rfl

theorem grantVote_makesNoCandidate (s : RaftState) (term : Int) (vote : RaftServer) :
    MakesNoCandidate s (s.grantVote term vote).2 := by
  unfold RaftState.grantVote
  split_ifs <;> exact makesNoCandidate_of_eq rfl rfl

theorem shutdown_makesNoCandidate (s : RaftState) : MakesNoCandidate s s.shutdown := by
  have hst : s.shutdown.status = SHUTDOWN := updateStatus_status s SHUTDOWN
  exact makesNoCandidate_of_ne (by rw [hst]; decide)

theorem ascendWith_makesNoCandidate (s : RaftState) (nodes : List RaftServer)
    (localIndex term : Int) : MakesNoCandidate s (s.ascendWith nodes localIndex term).2 := by
  rcases s.ascendWith_cases nodes localIndex term with hr | ⟨-, -, -, -, hr⟩
  · rw [hr]
    exact makesNoCandidate_of_eq rfl rfl
  rcases hr _ _ rfl with ⟨-, hr⟩ | ⟨-, hr⟩
  · rw [hr]
    exact makesNoCandidate_of_eq rfl rfl
  · rw [hr]
    exact makesNoCandidate_of_ne (by simp)

theorem OtherStep.makesNoCandidate (h : OtherStep s s') : MakesNoCandidate s s' := by
  cases h with
  | observed term leader => exact observed_makesNoCandidate s term leader
  | grantVote term vote => exact grantVote_makesNoCandidate s term vote
  | shutdown => exact shutdown_makesNoCandidate s
  | journal c h => exact makesNoCandidate_of_eq rfl rfl
  | heartbeat req =>
    rw [RaftDispatcher.heartbeat_on]
    split
    · exact makesNoCandidate_of_eq rfl rfl
    · exact observed_makesNoCandidate s req.term req.leader
  | appendEntries lastApplied req =>
    have ho := observed_makesNoCandidate s req.term req.leader
    rcases RaftDispatcher.appendEntries_cases lastApplied req s with
      ⟨e, he⟩ | ⟨r, hr, -⟩ | ⟨-, -, -, r, hr, -⟩
    · rw [he]
      exact makesNoCandidate_of_eq rfl rfl
    · rw [hr]
      exact ho
    · rw [hr]
      exact ho.trans (makesNoCandidate_of_eq rfl rfl)
  | requestVote req preVote =>
    have ho := observed_makesNoCandidate s req.term {}
    obtain ⟨hp, hv⟩ := RaftDispatcher.requestVote_cases s req
    cases preVote with
    | true =>
      rw [hp]
      exact makesNoCandidate_of_eq rfl rfl
    | false =>
      rcases hv with ⟨r, hr, -⟩ | ⟨r, hr, -⟩ | ⟨-, vote, hr, -⟩
      · rw [hr]
        exact makesNoCandidate_of_eq rfl rfl
      · rw [hr]
        exact ho
      · rw [hr]
        exact ho.trans (grantVote_makesNoCandidate _ req.term req.candidate)

theorem OtherStep.kept (h : OtherStep s s') (hs : Sound s) (hme : s.myself.empty = false) :
    Kept s s' := by
  cases h with
  | observed term leader => exact RaftState.kept_observed hs hme term leader
  | grantVote term vote => exact RaftState.kept_grantVote hs term vote
  | shutdown => exact RaftState.kept_shutdown hs
  | journal c h =>
    obtain ⟨hg, -, hv⟩ := RaftJournal.good_after_of_keepsTerm hs.journal_good c h
    exact RaftDispatcher.kept_journal hs hg hv
  | heartbeat req => exact RaftDispatcher.kept_heartbeat hs hme req
  | appendEntries lastApplied req => exact RaftDispatcher.kept_appendEntries hs hme lastApplied req
  | requestVote req preVote => exact RaftDispatcher.kept_requestVote hs hme req preVote

end

/-! ## The election -/

section

variable {s s' : RaftState} {phase phase' : Phase}

/-- The marker of a leader is appended, or it is not; nothing throws. -/
theorem appendLeadershipMarker_ok {j : RaftJournal} (h : RaftJournal.Good j)
    (index term : Int) (leader : RaftServer) :
    ∃ b, ((RaftJournal.appendLeadershipMarker index term leader).on j).1 = .ok b := by
  have hrequest : (leadershipMarker term leader).request ≠ [] := by simp [leadershipMarker]
  have hother : RaftJournal.isMembersUpdate (leadershipMarker term leader).request = false := by
    have hn : ascii "JOURNAL_LEADERSHIP_MARKER" ≠ ascii "JOURNAL_UPDATE_MEMBERS" := by
      decide +kernel
    simp [RaftJournal.isMembersUpdate, leadershipMarker, hn]
  unfold RaftJournal.appendLeadershipMarker RaftJournal.append
  by_cases hi : index ≠ j.logSize
  · exact ⟨false, by simp [RaftJournal.appendNoLock, hi]⟩
  by_cases hc : j.currentTerm < term
  · exact ⟨false, by simp [RaftJournal.appendNoLock, leadershipMarker, hc]⟩
  by_cases hl : term < j.termOfLastEntry
  · exact ⟨false, by simp [RaftJournal.appendNoLock, leadershipMarker, hc, hl]⟩
  obtain rfl := not_not.mp hi
  rw [RaftJournal.appendNoLock_other h.commit_lt_size (RaftJournal.size_nonneg h)
    (not_lt.mp hc) (not_lt.mp hl) hrequest hother]
  exact ⟨true, rfl⟩

theorem ascendWith_ok (hs : Sound s) (nodes : List RaftServer) (localIndex term : Int) :
    ∃ b, (s.ascendWith nodes localIndex term).1 = .ok b := by
  obtain ⟨b, hb⟩ := appendLeadershipMarker_ok hs.journal_good localIndex term s.myself
  rcases s.ascendWith_cases nodes localIndex term with hr | ⟨-, -, -, -, hr⟩
  · exact ⟨false, by rw [hr]⟩
  rcases hr _ _ rfl with ⟨-, hr⟩ | ⟨-, hr⟩
  · exact ⟨b, by rw [hr]; exact hb⟩
  · exact ⟨true, by rw [hr]⟩

/-- The term of an election that goes on. -/
def Phase.election : Phase → Option Int
  | .perform term => some term
  | .registerVotes term => some term
  | .ascend term => some term
  | .dropOut term => some term
  | _ => none

/-- The node is a candidate only in the election of its director, for the term of it. -/
structure Running.Inv (r : Running) : Prop where
  sound : Sound r.node
  named : r.node.myself.empty = false
  candidate : r.node.status = CANDIDATE → r.phase.election = some r.node.term
  fault : ∀ f, r.phase = .failed f → f = .assertion "checkBasicSanity()"

theorem DirectorStep.kept (h : DirectorStep s phase s' phase') (hs : Sound s)
    (hme : s.myself.empty = false) : Kept s s' := by
  cases h with
  | lease_expires snapshot => exact RaftState.kept_observed hs hme _ _
  | observe term => exact RaftState.kept_observed hs hme term {}
  | becomeCandidate term nodes => exact RaftState.kept_becomeCandidateWith hs nodes term
  | observe_answer term answered => exact RaftState.kept_observed hs hme answered {}
  | ascends term nodes localIndex => exact RaftState.kept_ascendWith hs nodes localIndex term
  | not_ascended term nodes localIndex => exact RaftState.kept_ascendWith hs nodes localIndex term
  | ascend_throws term nodes localIndex => exact RaftState.kept_ascendWith hs nodes localIndex term
  | dropOut term => exact RaftState.kept_dropOut hs term
  | _ => exact RaftState.kept_self hs

/-- Outside of an election the node stays what it was, or is no candidate any more. -/
theorem Running.Inv.not_candidate {r : Running} (h : r.Inv) (he : r.phase.election = none) :
    r.node.status ≠ CANDIDATE := by
  intro hc
  have := h.candidate hc
  rw [he] at this
  cases this

/-- The director makes a candidate by `becomeCandidate` alone, and ends every election by
`dropOut` or as leader. -/
theorem DirectorStep.candidate (h : DirectorStep s phase s' phase') (hs : Sound s)
    (hc : s.status = CANDIDATE → phase.election = some s.term) :
    s'.status = CANDIDATE → phase'.election = some s'.term := by
  have hnone : phase.election = none → MakesNoCandidate s s' →
      s'.status = CANDIDATE → phase'.election = some s'.term := by
    intro hn hm hc'
    have he := hc (hm hc').1
    rw [hn] at he
    cases he
  have hsame : phase'.election = phase.election → MakesNoCandidate s s' →
      s'.status = CANDIDATE → phase'.election = some s'.term := by
    intro hp hm hc'
    obtain ⟨hcand, hterm⟩ := hm hc'
    rw [hp, hterm]
    exact hc hcand
  cases h with
  | lease_expires snapshot => exact hnone rfl (observed_makesNoCandidate s _ _)
  | observe term => exact hnone rfl (observed_makesNoCandidate s term {})
  | becomeCandidate term nodes =>
    intro hc'
    rcases RaftState.becomeCandidateWith_cases hs nodes term with hr | ⟨rfl, -, -, hr⟩
    · rw [hr] at hc'
      cases hc hc'
    · rw [hr]
      rfl
  | perform term =>
    refine hsame ?_ (makesNoCandidate_of_eq rfl rfl)
    split <;> rfl
  | observe_answer term answered => exact hsame rfl (observed_makesNoCandidate s answered {})
  | not_elected term => exact hsame rfl (makesNoCandidate_of_eq rfl rfl)
  | elected term => exact hsame rfl (makesNoCandidate_of_eq rfl rfl)
  | ascends term nodes localIndex hok =>
    intro hc'
    rcases s.ascendWith_cases nodes localIndex term with hr | ⟨-, -, -, -, hr⟩
    · rw [hr] at hok
      cases hok
    rcases hr _ _ rfl with ⟨hne, hr⟩ | ⟨-, hr⟩
    · rw [hr] at hok
      exact absurd hok hne
    · rw [hr] at hc'
      cases hc'
  | not_ascended term nodes localIndex =>
    exact hsame rfl (ascendWith_makesNoCandidate s nodes localIndex term)
  | ascend_throws term nodes localIndex fault he =>
    obtain ⟨b, hb⟩ := ascendWith_ok hs nodes localIndex term
    rw [he] at hb
    cases hb
  | dropOut term =>
    intro hc'
    exfalso
    unfold RaftState.dropOut at hc'
    split at hc'
    · rename_i hne
      exact hne hc'
    split at hc'
    · rename_i hcand hterm
      exact hterm (Option.some.inj (hc (not_not.mp hcand)))
    · rw [updateStatus_status] at hc'
      cases hc'
  | _ => exact hnone rfl (makesNoCandidate_of_eq rfl rfl)

theorem DirectorStep.fault (h : DirectorStep s phase s' phase') (hs : Sound s)
    (hc : s.status = CANDIDATE → phase.election = some s.term) {f : Fault}
    (hf : phase' = .failed f) : f = .assertion "checkBasicSanity()" := by
  cases h with
  | main =>
    unfold RaftDirector.main at hf
    split at hf
    · cases hf
    split at hf
    · cases hf
    split at hf
    · rename_i hl
      rw [if_pos (show s.getSnapshot.leader = s.myself from hs.leader_self hl)] at hf
      cases hf
    · -- Nothing but a candidate is left.
      rename_i h1 h2 h3
      have hst : s.status = CANDIDATE := by
        cases hst : s.status with
        | CANDIDATE => rfl
        | SHUTDOWN => exact absurd hst h1
        | FOLLOWER => exact absurd hst h2
        | LEADER => exact absurd hst h3
      cases hc hst
  | leaderLoop_insane snapshot => exact (Phase.failed.inj hf).symm
  | ascend_throws term nodes localIndex fault he =>
    obtain ⟨b, hb⟩ := ascendWith_ok hs nodes localIndex term
    rw [he] at hb
    cases hb
  | observe term => split at hf <;> cases hf
  | becomeCandidate term nodes => split at hf <;> cases hf
  | perform term => split at hf <;> cases hf
  | _ => cases hf

theorem Running.Inv.step {r r' : Running} (h : r.Inv) (hr : r.Step r') : r'.Inv := by
  cases hr with
  | director hd =>
    have hk := hd.kept h.sound h.named
    exact ⟨hk.sound, by rw [hk.later.myself]; exact h.named, hd.candidate h.sound h.candidate,
      fun f hf => hd.fault h.sound h.candidate hf⟩
  | other ho =>
    have hk := ho.kept h.sound h.named
    refine ⟨hk.sound, by rw [hk.later.myself]; exact h.named, fun hc => ?_, h.fault⟩
    obtain ⟨hc', ht⟩ := ho.makesNoCandidate hc
    rw [ht]
    exact h.candidate hc'

/-! ## Every run -/

theorem inv_of_reaches {journal : RaftJournal} {me : RaftServer} {r : Running}
    (hj : RaftJournal.Good journal) (hme : me.empty = false) (h : Reaches journal me r) :
    r.Inv := by
  induction h with
  | refl =>
    refine ⟨RaftState.sound_ofJournal hj me, hme, fun hc => ?_, fun f hf => ?_⟩
    · cases hc
    · cases hf
  | tail _ hr ih => exact ih.step hr

/-- Whatever the other threads do, `main` takes its snapshot of a follower, of a leader, or of a
node that shuts down; `runForLeader` leaves no candidate behind; and while the node is a
candidate, the director is in the election for its term. -/
theorem the_director_never_meets_a_candidate {journal : RaftJournal} {me : RaftServer} {r : Running}
    (hj : RaftJournal.Good journal) (hme : me.empty = false) (h : Reaches journal me r) :
    (r.phase = .main → r.node.getSnapshot.status = FOLLOWER ∨ r.node.getSnapshot.status = LEADER ∨
      r.node.getSnapshot.status = SHUTDOWN) ∧
    r.phase ≠ .failed (.thrown "should never happen") ∧
    (r.phase = .ran → r.node.status ≠ CANDIDATE) ∧
    (r.node.status = CANDIDATE → r.phase.election = some r.node.term) := by
  have hi := inv_of_reaches hj hme h
  refine ⟨fun hp => ?_, fun hf => ?_, fun hp => ?_, hi.candidate⟩
  · have hne : r.node.status ≠ CANDIDATE := hi.not_candidate (by rw [hp]; rfl)
    cases hst : r.node.status with
    | CANDIDATE => exact absurd hst hne
    | FOLLOWER => exact .inl hst
    | LEADER => exact .inr (.inl hst)
    | SHUTDOWN => exact .inr (.inr hst)
  · cases hi.fault _ hf
  · exact hi.not_candidate (by rw [hp]; rfl)

/-- A node that timed out, became a candidate, was not elected, and dropped out. -/
theorem a_candidate_that_was_not_elected_drops_out :
    ∃ journal r, RaftJournal.obliterate (ascii "id") [⟨ascii "s1", 7776⟩, ⟨ascii "s2", 7776⟩] 0 =
        .ok journal ∧ Reaches journal ⟨ascii "s1", 7776⟩ r ∧ r.phase = .ran ∧
      r.node.term = 1 ∧ r.node.status ≠ CANDIDATE := by
  obtain ⟨journal, hj⟩ : ∃ journal, RaftJournal.obliterate (ascii "id")
    [⟨ascii "s1", 7776⟩, ⟨ascii "s2", 7776⟩] 0 = .ok journal := ⟨_, rfl⟩
  have hgood := RaftJournal.good_obliterate (by decide) hj
  generalize hs : RaftState.ofJournal journal ⟨ascii "s1", 7776⟩ = s
  generalize hs' : (s.observed 1 {}).2 = s'
  generalize hs'' : (s'.becomeCandidateWith [⟨ascii "s1", 7776⟩] 1).2 = s''
  have hterm : s.getSnapshot.term + 1 = 1 ∧ s.myself ∈ s.getNodes ∧ (s.observed 1 {}).1 = true ∧
      (s'.becomeCandidateWith [⟨ascii "s1", 7776⟩] 1).1 = true ∧
      standsFor s''.getSnapshot 1 = true ∧ (s''.dropOut 1).2.term = 1 := by
    obtain rfl := Except.ok.inj hj
    subst hs hs' hs''
    decide +kernel
  obtain ⟨h1, h2, h3, h4, h5, h6⟩ := hterm
  have hmain : main s.getSnapshot s.myself = .followerLoop s.getSnapshot := by
    rw [← hs]
    rfl
  have hr : Reaches journal ⟨ascii "s1", 7776⟩ ⟨s, .main⟩ := by
    rw [← hs]
    exact .refl
  have hr := hr.tail (.director (.main s))
  rw [hmain] at hr
  have hr := hr.tail (.director (.followerLoop_waits s s.getSnapshot (by simp)))
  have hr := hr.tail (.director (.times_out s s.getSnapshot false h2))
  have hr := hr.tail (.director (.runForLeader s false))
  have hr := hr.tail (.director (.preVote_over s false s.getSnapshot))
  rw [h1] at hr
  have hr := hr.tail (.director (.observe s 1))
  rw [if_pos h3, hs'] at hr
  have hr := hr.tail (.director (.becomeCandidate s' 1 [⟨ascii "s1", 7776⟩]))
  rw [if_pos h4, hs''] at hr
  have hr := hr.tail (.director (.perform s'' 1))
  rw [if_pos h5] at hr
  have hr := hr.tail (.director (.not_elected s'' 1))
  have hr := hr.tail (.director (.dropOut s'' 1))
  exact ⟨journal, _, hj, hr, rfl, h6,
    (the_director_never_meets_a_candidate hgood (by decide) hr).2.2.1 rfl⟩

end

end RaftDirector

end quarkdb
