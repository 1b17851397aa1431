-- The state of a raft node: its term, its vote, the leader it recognizes and
-- its own status, kept in step with the journal. The laws hold for every order
-- of the calls, across restarts, and wherever in a call the node crashes.
import QuarkDB.JournalLaws

namespace quarkdb

inductive RaftStatus
  | LEADER
  | FOLLOWER
  | CANDIDATE
  | SHUTDOWN
  deriving Repr, DecidableEq

structure RaftState where
  journal : RaftJournal
  myself : RaftServer
  term : Int
  status : RaftStatus
  leader : RaftServer
  votedFor : RaftServer
  leadershipMarker : Int

/-- What `getSnapshot` returns: every change of the state makes a new one. -/
structure RaftStateSnapshot where
  term : Int
  status : RaftStatus
  leader : RaftServer
  votedFor : RaftServer
  leadershipMarker : Int
  deriving Repr, DecidableEq

namespace RaftState

open RaftStatus

/-! ## The calls -/

/-- The constructor from a journal. -/
def ofJournal (journal : RaftJournal) (me : RaftServer) : RaftState :=
  { journal
    myself := me
    term := journal.currentTerm
    status := FOLLOWER
    leader := {}
    votedFor := journal.votedFor
    leadershipMarker := -1 }

def getSnapshot (s : RaftState) : RaftStateSnapshot :=
  { term := s.term
    status := s.status
    leader := s.leader
    votedFor := s.votedFor
    leadershipMarker := s.leadershipMarker }

def getNodes (s : RaftState) : List RaftServer := s.journal.members.nodes

def updateStatus (s : RaftState) (newstatus : RaftStatus) : RaftState :=
  if s.status ≠ newstatus then
    { s with
      status := newstatus
      leadershipMarker := if newstatus ≠ LEADER then -1 else s.leadershipMarker }
  else s

/-- `updateJournal`, which does not look at what the journal answers. -/
def updateJournal (s : RaftState) : RaftState :=
  { s with journal := ((RaftJournal.setCurrentTerm s.term s.votedFor).on s.journal).2 }

def dropOut (s : RaftState) (forTerm : Int) : Bool × RaftState :=
  if s.status ≠ CANDIDATE then (false, s)
  else if forTerm ≠ s.term then (false, s)
  else (true, s.updateStatus FOLLOWER)

/-- `becomeCandidate` with the members that the journal gave: no other call on the state comes
between, but other uses of the journal do. -/
def becomeCandidateWith (s : RaftState) (nodes : List RaftServer) (forTerm : Int) :
    Bool × RaftState :=
  if forTerm ≠ s.term then (false, s)
  else if s.status ≠ FOLLOWER then (false, s)
  else if !s.leader.empty then (false, s)
  else if !s.votedFor.empty then (false, s)
  else if s.myself ∉ nodes then (false, s)
  else (true, ({ s with votedFor := s.myself }.updateJournal).updateStatus CANDIDATE)

def becomeCandidate (s : RaftState) (forTerm : Int) : Bool × RaftState :=
  s.becomeCandidateWith s.getNodes forTerm

/-- `ascend` with the members and the size of the log that the journal gave. -/
def ascendWith (s : RaftState) (nodes : List RaftServer) (localIndex forTerm : Int) :
    Except Fault Bool × RaftState :=
  if forTerm ≠ s.term then (.ok false, s)
  else if s.status ≠ CANDIDATE then (.ok false, s)
  else if !s.leader.empty then (.ok false, s)
  else if s.votedFor ≠ s.myself then (.ok false, s)
  else if s.myself ∉ nodes then (.ok false, s)
  else
    match (RaftJournal.appendLeadershipMarker localIndex forTerm s.myself).on s.journal with
    | (.error e, journal) => (.error e, { s with journal })
    | (.ok false, journal) => (.ok false, { s with journal })
    | (.ok true, journal) =>
      (.ok true, { s with
        journal
        leader := s.myself
        leadershipMarker := localIndex }.updateStatus LEADER)

def ascend (s : RaftState) (forTerm : Int) : Except Fault Bool × RaftState :=
  s.ascendWith s.getNodes s.journal.logSize forTerm

def grantVote (s : RaftState) (forTerm : Int) (vote : RaftServer) : Bool × RaftState :=
  if s.status ≠ FOLLOWER then (false, s)
  else if forTerm ≠ s.term then (false, s)
  else if !s.leader.empty then (false, s)
  else if !s.votedFor.empty then (false, s)
  else (true, { s with votedFor := vote }.updateJournal)

def shutdown (s : RaftState) : RaftState := s.updateStatus SHUTDOWN

/-- The state in a newer term. If its leader is known, the vote is blocked, so
that the node votes for no other server in this term after a crash. -/
def enterTerm (s : RaftState) (observedTerm : Int) (observedLeader : RaftServer) : RaftState :=
  { s.updateStatus FOLLOWER with
    votedFor := if !observedLeader.empty then RaftServer.BLOCKED_VOTE else {}
    term := observedTerm
    leader := observedLeader }

def observed (s : RaftState) (observedTerm : Int) (observedLeader : RaftServer) :
    Bool × RaftState :=
  -- Reject any changes if we're in shutdown mode.
  if s.status = SHUTDOWN then (false, s)
  -- Observed a newer term, step down if leader or candidate.
  else if s.term < observedTerm then
    (true, (s.enterTerm observedTerm observedLeader).updateJournal)
  else if observedTerm = s.term ∧ s.leader.empty then
    -- Block any more votes for the current term.
    if !observedLeader.empty ∧ s.votedFor.empty then
      (true, { s with
        leader := observedLeader, votedFor := RaftServer.BLOCKED_VOTE }.updateJournal)
    else (true, { s with leader := observedLeader })
  else (false, s)

/-! ## Runs of a node -/

/-- A call on the state, with any arguments. -/
inductive StateCall
  | observed (term : Int) (leader : RaftServer)
  | becomeCandidate (term : Int)
  | ascend (term : Int)
  | dropOut (term : Int)
  | grantVote (term : Int) (vote : RaftServer)
  | shutdown

/-- The answer to a call and the state after it. -/
def perform (s : RaftState) : StateCall → Except Fault Bool × RaftState
  | .observed term leader => (.ok (s.observed term leader).1, (s.observed term leader).2)
  | .becomeCandidate term => (.ok (s.becomeCandidate term).1, (s.becomeCandidate term).2)
  | .ascend term => s.ascend term
  | .dropOut term => (.ok (s.dropOut term).1, (s.dropOut term).2)
  | .grantVote term vote => (.ok (s.grantVote term vote).1, (s.grantVote term vote).2)
  | .shutdown => (.ok true, s.shutdown)

/-- What can happen to a node: a call on its state, any other use of its
journal, a restart, or a crash in the middle of a call. Every call writes to the
disk at most once, so a crash finds that write done or not done. -/
inductive NodeStep
  | call (c : StateCall)
  | journal (c : RaftJournal.JournalCall) (h : RaftJournal.KeepsTerm c)
  | restart
  | crashIn (c : StateCall) (written : Bool)

/-- The node that comes up from a disk; a disk that cannot be read leaves it
down. -/
def restartFrom (db : JournalDB) (me : RaftServer) : Option RaftState :=
  match RaftJournal.initializeJournal db with
  | .ok journal => some (ofJournal journal me)
  | .error _ => none

def next (s : RaftState) : NodeStep → Option RaftState
  | .call c => some (s.perform c).2
  | .journal c _ => some { s with journal := s.journal.after c }
  | .restart => restartFrom s.journal.db s.myself
  | .crashIn c written =>
    restartFrom (if written then (s.perform c).2.journal.db else s.journal.db) s.myself

/-- The node after a sequence of steps. -/
def runAll (s : RaftState) : List NodeStep → Option RaftState
  | [] => some s
  | x :: xs => (s.next x).bind fun s' => s'.runAll xs

/-- The term of an ascent, if the step is one. -/
def ascentOf (s : RaftState) : NodeStep → Option Int
  | .call (.ascend term) => if (s.ascend term).1 = .ok true then some term else none
  | _ => none

/-- The terms in which the node ascended, in order. -/
def ascents (s : RaftState) : List NodeStep → List Int
  | [] => []
  | x :: xs =>
    (s.ascentOf x).toList ++
      match s.next x with
      | some s' => s'.ascents xs
      | none => []

/-! ## The invariant -/

structure Sound (s : RaftState) : Prop where
  journal_good : RaftJournal.Good s.journal
  term_eq : s.journal.currentTerm = s.term
  vote_eq : s.journal.votedFor = s.votedFor
  voted_self : s.status = CANDIDATE ∨ s.status = LEADER → s.votedFor = s.myself
  leader_self : s.status = LEADER → s.leader = s.myself

/-- What holds between two states of a node, also across a restart. -/
structure Later (s s' : RaftState) : Prop where
  myself : s'.myself = s.myself
  term : s.term ≤ s'.term
  vote : s'.term = s.term → s.votedFor.empty = false → s'.votedFor = s.votedFor
  candidate : s'.term = s.term → s.votedFor.empty = false → s'.status = CANDIDATE →
    s.status = CANDIDATE

/-- A leader that is recognized stays the leader of its term. -/
def LeaderKept (s s' : RaftState) : Prop :=
  s'.term = s.term → s.leader.empty = false → s'.leader = s.leader

theorem later_self (s : RaftState) : Later s s := ⟨rfl, le_refl _, fun _ _ => rfl, fun _ _ => id⟩

theorem leaderKept_self (s : RaftState) : LeaderKept s s := fun _ _ => rfl

theorem Later.trans {s s' s'' : RaftState} (h : Later s s') (h' : Later s' s'') :
    Later s s'' := by
  have h1 := h.term
  have h2 := h'.term
  refine ⟨h'.myself.trans h.myself, le_trans h1 h2, fun ht hv => ?_, fun ht hv hc => ?_⟩
  · have hm := h.vote (by omega) hv
    rw [h'.vote (by omega) (by rw [hm]; exact hv), hm]
  · have hm := h.vote (by omega) hv
    exact h.candidate (by omega) hv (h'.candidate (by omega) (by rw [hm]; exact hv) hc)

theorem LeaderKept.trans {s s' s'' : RaftState} (h1 : s.term ≤ s'.term) (h2 : s'.term ≤ s''.term)
    (h : LeaderKept s s') (h' : LeaderKept s' s'') : LeaderKept s s'' := by
  intro ht hl
  have hm := h (by omega) hl
  rw [h' (by omega) (by rw [hm]; exact hl), hm]

/-! ## Writing the vote -/

/-- The journal takes a vote when it is for a newer term, or when there is none
in this term yet. -/
theorem updateJournal_eq {s : RaftState}
    (h : s.journal.currentTerm < s.term ∨
      s.journal.currentTerm = s.term ∧ s.journal.votedFor.empty = true) :
    s.updateJournal = { s with journal := { s.journal with
      db := { s.journal.db with currentTerm := s.term, votedFor := s.votedFor.toBytes }
      currentTerm := s.term
      votedFor := s.votedFor } } := by
  unfold updateJournal
  rw [RaftJournal.setCurrentTerm_on, if_neg]
  rintro (hlt | ⟨ht, he⟩)
  · omega
  · rcases h with h | ⟨-, h⟩
    · omega
    · rw [h] at he
      cases he

theorem good_updateJournal {s : RaftState} (h : RaftJournal.Good s.journal) :
    RaftJournal.Good s.updateJournal.journal :=
  (RaftJournal.good_setCurrentTerm h s.term s.votedFor .reopen).1

/-! ## Each call keeps the invariant -/

/-- What one step of a running node keeps. -/
structure Kept (s s' : RaftState) : Prop where
  sound : Sound s'
  later : Later s s'
  leader : LeaderKept s s'

theorem kept_self {s : RaftState} (h : Sound s) : Kept s s :=
  ⟨h, later_self s, leaderKept_self s⟩

/-- A change of status that is not to candidate or leader. -/
theorem kept_updateStatus {s : RaftState} (h : Sound s) {newstatus : RaftStatus}
    (h1 : newstatus ≠ CANDIDATE) (h2 : newstatus ≠ LEADER) : Kept s (s.updateStatus newstatus) := by
  unfold updateStatus
  split
  · refine ⟨⟨h.journal_good, h.term_eq, h.vote_eq, ?_, ?_⟩,
      ⟨rfl, le_refl _, fun _ _ => rfl, fun _ _ hc => absurd hc h1⟩, fun _ _ => rfl⟩
    · rintro (hc | hl)
      · exact absurd hc h1
      · exact absurd hl h2
    · intro hl
      exact absurd hl h2
  · exact kept_self h

theorem kept_dropOut {s : RaftState} (h : Sound s) (forTerm : Int) :
    Kept s (s.dropOut forTerm).2 := by
  unfold dropOut
  split
  · exact kept_self h
  split
  · exact kept_self h
  · exact kept_updateStatus h (by decide) (by decide)

theorem kept_shutdown {s : RaftState} (h : Sound s) : Kept s s.shutdown :=
  kept_updateStatus h (by decide) (by decide)

/-- A first vote in the current term, and the status that goes with it. -/
theorem kept_vote {s : RaftState} (h : Sound s) (he : s.votedFor.empty = true)
    (vote leader : RaftServer) (hl : LeaderKept s { s with leader })
    (hs : s.status ≠ LEADER) (hc : s.status = CANDIDATE → vote = s.myself) :
    Kept s { s with leader, votedFor := vote }.updateJournal := by
  have hj : s.journal.currentTerm = s.term ∧ s.journal.votedFor.empty = true := by
    rw [h.term_eq, h.vote_eq]
    exact ⟨rfl, he⟩
  have hg := good_updateJournal (s := { s with leader, votedFor := vote }) h.journal_good
  rw [updateJournal_eq (s := { s with leader, votedFor := vote }) (.inr hj)] at hg ⊢
  refine ⟨⟨hg, rfl, rfl, ?_, fun h1 => absurd h1 hs⟩,
    ⟨rfl, le_refl _, fun _ hv => ?_, fun _ _ hc => hc⟩, hl⟩
  · rintro (h1 | h1)
    · exact hc h1
    · exact absurd h1 hs
  · rw [he] at hv
    cases hv

/-- A candidate has voted for itself, in the term that it is a candidate for. -/
theorem becomeCandidateWith_cases {s : RaftState} (h : Sound s) (nodes : List RaftServer)
    (forTerm : Int) :
    s.becomeCandidateWith nodes forTerm = (false, s) ∨
    (forTerm = s.term ∧ s.status = FOLLOWER ∧ s.votedFor.empty = true ∧
      s.becomeCandidateWith nodes forTerm =
        (true, { { s with votedFor := s.myself }.updateJournal with
          status := CANDIDATE
          leadershipMarker := -1 })) := by
  unfold becomeCandidateWith
  by_cases h1 : forTerm ≠ s.term
  · exact .inl (by rw [if_pos h1])
  by_cases h2 : s.status ≠ FOLLOWER
  · exact .inl (by rw [if_neg h1, if_pos h2])
  by_cases h3 : !s.leader.empty
  · exact .inl (by rw [if_neg h1, if_neg h2, if_pos h3])
  by_cases h4 : !s.votedFor.empty
  · exact .inl (by rw [if_neg h1, if_neg h2, if_neg h3, if_pos h4])
  by_cases h5 : s.myself ∉ nodes
  · exact .inl (by rw [if_neg h1, if_neg h2, if_neg h3, if_neg h4, if_pos h5])
  have hst : s.status = FOLLOWER := not_not.mp h2
  have hv : s.votedFor.empty = true := by simpa using h4
  have hj : s.journal.currentTerm = s.term ∧ s.journal.votedFor.empty = true := by
    rw [h.term_eq, h.vote_eq]
    exact ⟨rfl, hv⟩
  refine .inr ⟨not_not.mp h1, hst, hv, ?_⟩
  rw [if_neg h1, if_neg h2, if_neg h3, if_neg h4, if_neg h5,
    updateJournal_eq (s := { s with votedFor := s.myself }) (.inr hj)]
  simp [updateStatus, hst]

theorem kept_becomeCandidateWith {s : RaftState} (h : Sound s) (nodes : List RaftServer)
    (forTerm : Int) : Kept s (s.becomeCandidateWith nodes forTerm).2 := by
  rcases becomeCandidateWith_cases h nodes forTerm with hr | ⟨-, hst, hv, hr⟩
  · rw [hr]
    exact kept_self h
  · rw [hr]
    have hk := kept_vote h hv s.myself s.leader (leaderKept_self s) (by rw [hst]; decide)
      fun _ => rfl
    have hj : s.journal.currentTerm = s.term ∧ s.journal.votedFor.empty = true := by
      rw [h.term_eq, h.vote_eq]
      exact ⟨rfl, hv⟩
    rw [updateJournal_eq (s := { s with votedFor := s.myself }) (.inr hj)] at hk ⊢
    obtain ⟨⟨g1, g2, g3, g4, g5⟩, g6, g7⟩ := hk
    refine ⟨⟨g1, rfl, rfl, fun _ => rfl, fun hl => by cases hl⟩,
      ⟨rfl, g6.term, g6.vote, fun _ hne _ => ?_⟩, g7⟩
    rw [hv] at hne
    cases hne

theorem kept_becomeCandidate {s : RaftState} (h : Sound s) (forTerm : Int) :
    Kept s (s.becomeCandidate forTerm).2 :=
  kept_becomeCandidateWith h s.getNodes forTerm

/-- The journal with the marker of a new leader. -/
def marked (s : RaftState) (forTerm : Int) : RaftJournal :=
  s.journal.after (.appendLeadershipMarker s.journal.logSize forTerm s.myself)

/-- The only change of `ascend` but for the journal is the status, the leader
and the marker. -/
theorem ascendWith_cases (s : RaftState) (nodes : List RaftServer) (localIndex forTerm : Int) :
    (s.ascendWith nodes localIndex forTerm = (.ok false, s)) ∨
    (forTerm = s.term ∧ s.status = CANDIDATE ∧ s.leader.empty = true ∧ s.votedFor = s.myself ∧
      ∀ r j,
        (RaftJournal.appendLeadershipMarker localIndex forTerm s.myself).on s.journal = (r, j) →
      (r ≠ .ok true ∧ s.ascendWith nodes localIndex forTerm = (r, { s with journal := j })) ∨
        (r = .ok true ∧ s.ascendWith nodes localIndex forTerm = (.ok true, { s with
          journal := j
          leader := s.myself
          leadershipMarker := localIndex
          status := LEADER }))) := by
  unfold ascendWith
  by_cases h1 : forTerm ≠ s.term
  · exact .inl (by rw [if_pos h1])
  by_cases h2 : s.status ≠ CANDIDATE
  · exact .inl (by rw [if_neg h1, if_pos h2])
  by_cases h3 : !s.leader.empty
  · exact .inl (by rw [if_neg h1, if_neg h2, if_pos h3])
  by_cases h4 : s.votedFor ≠ s.myself
  · exact .inl (by rw [if_neg h1, if_neg h2, if_neg h3, if_pos h4])
  by_cases h5 : s.myself ∉ nodes
  · exact .inl (by rw [if_neg h1, if_neg h2, if_neg h3, if_neg h4, if_pos h5])
  rw [if_neg h1, if_neg h2, if_neg h3, if_neg h4, if_neg h5]
  have hst : s.status = CANDIDATE := not_not.mp h2
  refine .inr ⟨not_not.mp h1, hst, by simpa using h3, not_not.mp h4, fun r j hr => ?_⟩
  rw [hr]
  rcases r with e | b
  · exact .inl ⟨by simp, rfl⟩
  cases b with
  | false => exact .inl ⟨by simp, rfl⟩
  | true => exact .inr ⟨rfl, by simp [updateStatus, hst]⟩

theorem ascend_cases (s : RaftState) (forTerm : Int) :
    (∃ r, s.ascend forTerm = (r, s) ∧ r ≠ .ok true) ∨
    (forTerm = s.term ∧ s.status = CANDIDATE ∧ s.leader.empty = true ∧ s.votedFor = s.myself ∧
      ((∃ r, r ≠ .ok true ∧ s.ascend forTerm = (r, { s with journal := s.marked forTerm })) ∨
        s.ascend forTerm = (.ok true, { s with
          journal := s.marked forTerm
          leader := s.myself
          leadershipMarker := s.journal.logSize
          status := LEADER }))) := by
  have hself : s.ascendWith s.getNodes s.journal.logSize forTerm = s.ascend forTerm := rfl
  rcases ascendWith_cases s s.getNodes s.journal.logSize forTerm with hr | ⟨h1, h2, h3, h4, hr⟩
  · exact .inl ⟨.ok false, hself ▸ hr, by simp⟩
  · refine .inr ⟨h1, h2, h3, h4, ?_⟩
    rw [hself] at hr
    rcases hr _ _ rfl with ⟨hne, hr⟩ | ⟨-, hr⟩
    · exact .inl ⟨_, hne, hr⟩
    · exact .inr hr

theorem kept_ascendWith {s : RaftState} (h : Sound s) (nodes : List RaftServer)
    (localIndex forTerm : Int) : Kept s (s.ascendWith nodes localIndex forTerm).2 := by
  obtain ⟨hg, -, ht, hv⟩ := RaftJournal.good_after_of_keepsTerm h.journal_good
    (.appendLeadershipMarker localIndex forTerm s.myself) True.intro
  rcases ascendWith_cases s nodes localIndex forTerm with hr | ⟨-, hst, hle, hvm, hr⟩
  · rw [hr]
    exact kept_self h
  rcases hr _ _ rfl with ⟨-, hr⟩ | ⟨-, hr⟩
  · rw [hr]
    exact ⟨⟨hg, ht.trans h.term_eq, hv.trans h.vote_eq, h.voted_self, h.leader_self⟩,
      ⟨rfl, le_refl _, fun _ _ => rfl, fun _ _ => id⟩, fun _ _ => rfl⟩
  · rw [hr]
    refine ⟨⟨hg, ht.trans h.term_eq, hv.trans h.vote_eq, fun _ => hvm, fun _ => rfl⟩,
      ⟨rfl, le_refl _, fun _ _ => rfl, fun _ _ _ => hst⟩, fun _ hl => ?_⟩
    rw [hle] at hl
    cases hl

theorem kept_ascend {s : RaftState} (h : Sound s) (forTerm : Int) :
    Kept s (s.ascend forTerm).2 :=
  kept_ascendWith h s.getNodes s.journal.logSize forTerm

theorem kept_grantVote {s : RaftState} (h : Sound s) (forTerm : Int) (vote : RaftServer) :
    Kept s (s.grantVote forTerm vote).2 := by
  unfold grantVote
  split
  · exact kept_self h
  split
  · exact kept_self h
  split
  · exact kept_self h
  split
  · exact kept_self h
  rename_i hst _ _ hv
  have hst : s.status = FOLLOWER := not_not.mp hst
  exact kept_vote h (by simpa using hv) vote s.leader (leaderKept_self s) (by rw [hst]; decide)
    fun hc => by rw [hst] at hc; cases hc

theorem enterTerm_frame (s : RaftState) (observedTerm : Int) (observedLeader : RaftServer) :
    (s.enterTerm observedTerm observedLeader).journal = s.journal ∧
    (s.enterTerm observedTerm observedLeader).myself = s.myself ∧
    (s.enterTerm observedTerm observedLeader).status = FOLLOWER := by
  unfold enterTerm updateStatus
  split
  · exact ⟨rfl, rfl, rfl⟩
  · rename_i hne
    exact ⟨rfl, rfl, not_not.mp hne⟩

theorem kept_observed {s : RaftState} (h : Sound s) (hme : s.myself.empty = false)
    (observedTerm : Int) (observedLeader : RaftServer) :
    Kept s (s.observed observedTerm observedLeader).2 := by
  unfold observed
  split
  · exact kept_self h
  split
  · -- A newer term: nothing of the old one is left.
    rename_i hlt
    obtain ⟨hj, hm, hst⟩ := enterTerm_frame s observedTerm observedLeader
    have ht : (s.enterTerm observedTerm observedLeader).term = observedTerm := rfl
    have hg := good_updateJournal (s := s.enterTerm observedTerm observedLeader)
      (by rw [hj]; exact h.journal_good)
    rw [updateJournal_eq (.inl (by rw [hj, h.term_eq, ht]; exact hlt))] at hg ⊢
    refine ⟨⟨hg, rfl, rfl, ?_, ?_⟩, ⟨hm, by rw [ht]; omega, fun he => ?_, fun he => ?_⟩,
      fun he => ?_⟩
    · rintro (hc | hl)
      · exact absurd (hst.symm.trans hc) (by decide)
      · exact absurd (hst.symm.trans hl) (by decide)
    · intro hl
      exact absurd (hst.symm.trans hl) (by decide)
    · exact absurd (ht.symm.trans he) (by omega)
    · exact absurd (ht.symm.trans he) (by omega)
    · exact absurd (ht.symm.trans he) (by omega)
  split
  · -- The leader of this term, if there was none.
    rename_i hsame
    obtain ⟨-, hle⟩ := hsame
    have hl : LeaderKept s { s with leader := observedLeader } := by
      intro _ hl
      rw [hle] at hl
      cases hl
    have hnl : s.status ≠ LEADER := by
      intro hs
      rw [h.leader_self hs, hme] at hle
      cases hle
    split
    · rename_i hb
      refine kept_vote h (by simpa using hb.2) _ observedLeader hl hnl fun hc => ?_
      rw [h.voted_self (.inl hc), hme] at hb
      exact absurd hb.2 (by decide)
    · exact ⟨⟨h.journal_good, h.term_eq, h.vote_eq, h.voted_self, fun hs => absurd hs hnl⟩,
        ⟨rfl, le_refl _, fun _ _ => rfl, fun _ _ => id⟩, hl⟩
  · exact kept_self h

theorem kept_perform {s : RaftState} (h : Sound s) (hme : s.myself.empty = false)
    (c : StateCall) : Kept s (s.perform c).2 := by
  cases c with
  | observed term leader => exact kept_observed h hme term leader
  | becomeCandidate term => exact kept_becomeCandidate h term
  | ascend term => exact kept_ascend h term
  | dropOut term => exact kept_dropOut h term
  | grantVote term vote => exact kept_grantVote h term vote
  | shutdown => exact kept_shutdown h

/-! ## Restarts -/

/-- The node that comes up again has the term and the vote it had. -/
theorem sound_restart {s s' : RaftState} (h : Sound s)
    (hr : restartFrom s.journal.db s.myself = some s') : Sound s' ∧ Later s s' := by
  unfold restartFrom at hr
  cases hj : RaftJournal.initializeJournal s.journal.db with
  | error e => simp [hj] at hr
  | ok j =>
    simp only [hj, Option.some.injEq] at hr
    subst hr
    obtain ⟨hj', -, hv⟩ := RaftJournal.reopen_ok h.journal_good hj
    have ht : j.currentTerm = s.term := by
      rw [hj']
      exact h.term_eq
    refine ⟨⟨RaftJournal.good_reopen h.journal_good hj, rfl, rfl, ?_, ?_⟩, rfl, le_of_eq ht.symm,
      fun _ hne => ?_, fun _ _ hc => ?_⟩
    · rintro (hc | hc) <;> cases hc
    · intro hc
      cases hc
    · show j.votedFor = s.votedFor
      rw [← h.vote_eq] at hne ⊢
      exact hv hne
    · cases hc

/-- The steps in which the node keeps running. -/
def KeepsRunning : NodeStep → Prop
  | .restart => False
  | .crashIn _ _ => False
  | _ => True

/-- One step of a node. -/
theorem sound_next {s s' : RaftState} {x : NodeStep} (h : Sound s) (hme : s.myself.empty = false)
    (hn : s.next x = some s') :
    Sound s' ∧ Later s s' ∧ (KeepsRunning x → LeaderKept s s') := by
  cases x with
  | call c =>
    obtain rfl : (s.perform c).2 = s' := by simpa [next] using hn
    obtain ⟨h1, h2, h3⟩ := kept_perform h hme c
    exact ⟨h1, h2, fun _ => h3⟩
  | journal c hk =>
    obtain rfl : { s with journal := s.journal.after c } = s' := by simpa [next] using hn
    obtain ⟨hg, -, ht, hv⟩ := RaftJournal.good_after_of_keepsTerm h.journal_good c hk
    exact ⟨⟨hg, ht.trans h.term_eq, hv.trans h.vote_eq, h.voted_self, h.leader_self⟩,
      ⟨rfl, le_refl _, fun _ _ => rfl, fun _ _ => id⟩, fun _ _ _ => rfl⟩
  | restart =>
    obtain ⟨h1, h2⟩ := sound_restart h hn
    exact ⟨h1, h2, fun hk => absurd hk id⟩
  | crashIn c written =>
    cases written with
    | false =>
      obtain ⟨h1, h2⟩ := sound_restart h hn
      exact ⟨h1, h2, fun hk => absurd hk id⟩
    | true =>
      obtain ⟨k1, k2, -⟩ := kept_perform h hme c
      have hn : restartFrom (s.perform c).2.journal.db s.myself = some s' := hn
      rw [← k2.myself] at hn
      obtain ⟨h1, h2⟩ := sound_restart k1 hn
      exact ⟨h1, k2.trans h2, fun hk => absurd hk id⟩

/-! ## Whole runs -/

theorem sound_runAll {s s' : RaftState} {xs : List NodeStep} (h : Sound s)
    (hme : s.myself.empty = false) (hr : s.runAll xs = some s') :
    Sound s' ∧ Later s s' ∧ ((∀ x ∈ xs, KeepsRunning x) → LeaderKept s s') := by
  induction xs generalizing s with
  | nil =>
    obtain rfl : s = s' := by simpa [runAll] using hr
    exact ⟨h, later_self s, fun _ => leaderKept_self s⟩
  | cons x xs ih =>
    obtain ⟨t, ht, hr⟩ := Option.bind_eq_some_iff.mp hr
    obtain ⟨h1, h2, h3⟩ := sound_next h hme ht
    obtain ⟨i1, i2, i3⟩ := ih h1 (by rw [h2.myself]; exact hme) hr
    refine ⟨i1, h2.trans i2, fun hk => ?_⟩
    exact LeaderKept.trans h2.term i2.term (h3 (hk x (by simp)))
      (i3 fun y hy => hk y (by simp [hy]))

/-- A node ascends at most once in a term, and never in a term that it has voted
in without being a candidate. -/
theorem ascents_spec {s : RaftState} {xs : List NodeStep} (h : Sound s)
    (hme : s.myself.empty = false) :
    (s.ascents xs).Nodup ∧ ∀ t ∈ s.ascents xs, s.term ≤ t ∧
      (t = s.term → s.votedFor.empty = true ∨ s.status = CANDIDATE) := by
  induction xs generalizing s with
  | nil => exact ⟨List.nodup_nil, fun t ht => absurd ht List.not_mem_nil⟩
  | cons x xs ih =>
    have hrest : ∀ s', s.next x = some s' → (s'.ascents xs).Nodup ∧ ∀ t ∈ s'.ascents xs,
        s.term ≤ t ∧ (t = s.term → s.votedFor.empty = true ∨ s.status = CANDIDATE) := by
      intro s' hs'
      obtain ⟨h1, h2, -⟩ := sound_next h hme hs'
      obtain ⟨i1, i2⟩ := ih h1 (by rw [h2.myself]; exact hme)
      refine ⟨i1, fun t ht => ?_⟩
      obtain ⟨hle, hor⟩ := i2 t ht
      have hterm := h2.term
      refine ⟨by omega, fun hts => ?_⟩
      by_cases he : s.votedFor.empty = true
      · exact .inl he
      · have he : s.votedFor.empty = false := by simpa using he
        rcases hor (by omega) with hv | hc
        · rw [h2.vote (by omega) he, he] at hv
          cases hv
        · exact .inr (h2.candidate (by omega) he hc)
    unfold ascents
    cases ha : s.ascentOf x with
    | none =>
      cases hs' : s.next x with
      | none => exact ⟨List.nodup_nil, fun t ht => absurd ht List.not_mem_nil⟩
      | some s' => simpa using hrest s' hs'
    | some t =>
      -- An ascent: the node is leader afterwards, and has voted for itself.
      cases x with
      | call c =>
        cases c with
        | ascend term =>
          simp only [ascentOf] at ha
          split at ha
          · rename_i hok
            cases ha
            rcases ascend_cases s t with ⟨r, hr, hne⟩ | ⟨hterm, hst, -, hv, ⟨r, hne, hr⟩ | hr⟩
            · rw [hr] at hok
              exact absurd hok hne
            · rw [hr] at hok
              exact absurd hok hne
            · have hs' : s.next (.call (.ascend t)) = some (s.ascend t).2 := rfl
              obtain ⟨r1, r2⟩ := hrest _ hs'
              obtain ⟨h1, h2, -⟩ := sound_next h hme hs'
              obtain ⟨-, i2⟩ := ih h1 (by rw [h2.myself]; exact hme)
              rw [hs']
              simp only [Option.toList_some, List.singleton_append, List.nodup_cons]
              refine ⟨⟨fun hmem => ?_, r1⟩, fun t' ht' => ?_⟩
              · have hor := (i2 t hmem).2
                rw [hr] at hor
                rcases hor hterm with he | hc
                · rw [show ({ s with
                    journal := s.marked t, leader := s.myself,
                    leadershipMarker := s.journal.logSize, status := LEADER } : RaftState).votedFor
                      = s.myself from hv, hme] at he
                  cases he
                · cases hc
              · rcases List.mem_cons.mp ht' with rfl | ht'
                · exact ⟨le_of_eq hterm.symm, fun _ => .inr hst⟩
                · exact r2 t' ht'
          · cases ha
        | _ => simp [ascentOf] at ha
      | _ => simp [ascentOf] at ha

/-- A state that is built from a journal. -/
theorem sound_ofJournal {j : RaftJournal} (h : RaftJournal.Good j) (me : RaftServer) :
    Sound (ofJournal j me) := by
  refine ⟨h, rfl, rfl, ?_, ?_⟩
  · rintro (hc | hc) <;> cases hc
  · intro hc
    cases hc

/-- In every run of a node, restarts and crashes included, its term and vote are
those of its journal, a candidate or leader has voted for itself, a leader
recognizes itself, it ascends at most once in a term, its term never goes back,
and in one term it never changes its vote, nor the leader it recognizes until it
restarts. -/
theorem a_node_keeps_its_term_its_vote_and_its_leader
    {clusterID : RaftClusterID} {nodes : List RaftServer} {startIndex : Int} {new : RaftJournal}
    {me : RaftServer} (h0 : 0 ≤ startIndex)
    (hnew : RaftJournal.obliterate clusterID nodes startIndex = .ok new)
    (hme : me.empty = false) {steps : List NodeStep} {s : RaftState}
    (hs : (ofJournal new me).runAll steps = some s) :
    (s.journal.db.currentTerm = s.term ∧ s.journal.db.votedFor = s.votedFor.toBytes ∧
      s.journal.currentTerm = s.term ∧ s.journal.votedFor = s.votedFor) ∧
    (s.status = CANDIDATE ∨ s.status = LEADER → s.votedFor = me) ∧
    (s.status = LEADER → s.leader = me) ∧
    ((ofJournal new me).ascents steps).Nodup ∧
    ∀ more s', s.runAll more = some s' →
      s.term ≤ s'.term ∧
      (s'.term = s.term → s.votedFor.empty = false → s'.votedFor = s.votedFor) ∧
      (s'.term = s.term → (∀ x ∈ more, KeepsRunning x) → s.leader.empty = false →
        s'.leader = s.leader) := by
  have hstart := sound_ofJournal (RaftJournal.good_obliterate h0 hnew) me
  obtain ⟨h1, h2, -⟩ := sound_runAll hstart hme hs
  have hmy : s.myself = me := h2.myself
  have hmir := h1.journal_good.mirrored
  refine ⟨⟨hmir.current_term.trans h1.term_eq, by rw [hmir.voted_for, h1.vote_eq], h1.term_eq,
    h1.vote_eq⟩, ?_, ?_, (ascents_spec hstart hme).1, ?_⟩
  · intro hc
    rw [h1.voted_self hc, hmy]
  · intro hl
    rw [h1.leader_self hl, hmy]
  · intro more s' hm
    obtain ⟨-, l2, l3⟩ := sound_runAll h1 (by rw [hmy]; exact hme) hm
    exact ⟨l2.term, l2.vote, fun ht hk hl => l3 hk ht hl⟩

/-- A node that ascended in term 1, crashed while it became a candidate for term
2, and came up again: its vote in term 2 is still its own. -/
theorem a_node_that_crashed_keeps_its_vote :
    ∃ new s, RaftJournal.obliterate (ascii "id") [⟨ascii "s1", 7776⟩] 0 = .ok new ∧
      (ofJournal new ⟨ascii "s1", 7776⟩).runAll
        [.call (.observed 1 {}), .call (.becomeCandidate 1), .call (.ascend 1),
          .call (.observed 2 {}), .crashIn (.becomeCandidate 2) true] = some s ∧
      s.term = 2 ∧ s.votedFor = ⟨ascii "s1", 7776⟩ ∧ s.journal.votedFor = s.votedFor := by
  obtain ⟨new, s, hnew, hs, ht, hv⟩ : ∃ new s,
      RaftJournal.obliterate (ascii "id") [⟨ascii "s1", 7776⟩] 0 = .ok new ∧
      (ofJournal new ⟨ascii "s1", 7776⟩).runAll
        [.call (.observed 1 {}), .call (.becomeCandidate 1), .call (.ascend 1),
          .call (.observed 2 {}), .crashIn (.becomeCandidate 2) true] = some s ∧
      s.term = 2 ∧ s.votedFor = ⟨ascii "s1", 7776⟩ := ⟨_, _, rfl, rfl, rfl, rfl⟩
  refine ⟨new, s, hnew, hs, ht, hv, ?_⟩
  exact (a_node_keeps_its_term_its_vote_and_its_leader (le_refl 0) hnew (by decide) hs).1.2.2.2

end RaftState

end quarkdb
