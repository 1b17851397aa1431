-- What a majority is: for the commit index, for the lease of a leader, and for an election. The
-- three computations agree for each number of nodes.
import QuarkDB.RaftCluster
import QuarkDB.Ranking

namespace quarkdb

open Ranking

/-! ## Leases of leaders -/

/-- Times are counted in ticks of the clock. -/
structure RaftLease where
  leaseDuration : Int
  targets : List RaftServer
  quorumSize : Nat
  /-- When each server was last in contact: at the epoch, until there is a heartbeat. -/
  registrations : RaftServer → Int

namespace RaftLease

def updateTargets (l : RaftLease) (trgt : List RaftServer) : RaftLease :=
  { l with
    targets := trgt
    quorumSize := calculateQuorumSize (trgt.length + 1) }

/-- The constructor. -/
def new (trgt : List RaftServer) (leaseDuration : Int) : RaftLease :=
  updateTargets { leaseDuration, targets := [], quorumSize := 0, registrations := fun _ => 0 } trgt

/-- The n-th lease from the end, as sorted by the last contact. -/
def getNthLease (l : RaftLease) (now : Int) (n : Nat) : Except Fault Int :=
  -- There is only a single node in the cluster: this one.
  if l.quorumSize = 1 then .ok (now + l.leaseDuration)
  else
    let leases := (l.targets.map l.registrations).insertionSort (· ≤ ·)
    let threshold : Int := (leases.length + 1) - n
    let threshold := if threshold < 0 then 0 else threshold
    match leases[threshold.toNat]? with
    | some lease => .ok (lease + l.leaseDuration)
    | none => .error .outOfBounds

def getDeadline (l : RaftLease) (now : Int) : Except Fault Int := l.getNthLease now l.quorumSize

/-- When the loss of one more node would take the cluster offline. -/
def getShakyQuorumDeadline (l : RaftLease) (now : Int) : Except Fault Int :=
  l.getNthLease now (l.quorumSize + 1)

end RaftLease

/-! ## Majorities -/

/-- With one more node for the leader, more than half of the nodes. -/
theorem majority_of_quorum {targets others : Nat}
    (h : calculateQuorumSize (targets + 1) - 1 ≤ others) : targets + 1 < 2 * (others + 1) := by
  unfold calculateQuorumSize at h
  omega

/-- Where the threshold is: in the list, with a quorum from there on when the leader is
counted. -/
theorem threshold_of_quorum {targets : Nat} (h : 0 < targets) :
    targets + 1 - calculateQuorumSize (targets + 1) < targets ∧
      targets - (targets + 1 - calculateQuorumSize (targets + 1)) =
        calculateQuorumSize (targets + 1) - 1 := by
  unfold calculateQuorumSize
  omega

section

variable {trgt : List RaftServer}

/-- A quorum, the leader included, has reached the index, and no greater one. -/
theorem quorumIndex_isGreatest (t : RaftCommitTracker) (hne : trgt ≠ []) :
    ∃ index, (t.updateTargets trgt).quorumIndex = .ok index ∧
      IsGreatest {m | (t.updateTargets trgt).quorumSize - 1 ≤
        reaching (trgt.map t.registrations) m} index := by
  have hlen : (trgt.map t.registrations).length = trgt.length := List.length_map _
  obtain ⟨hlt, hcount⟩ := threshold_of_quorum (List.length_pos_iff.mpr hne)
  obtain ⟨index, hget, hgreatest⟩ :=
    isGreatest_insertionSort (l := trgt.map t.registrations) (by rw [hlen]; exact hlt)
  rw [hlen, hcount] at hgreatest
  refine ⟨index, ?_, hgreatest⟩
  unfold RaftCommitTracker.quorumIndex RaftCommitTracker.updateTargets
  dsimp only
  rw [List.length_insertionSort, hlen, hget]

/-- What is committed, a majority of the nodes holds. -/
theorem recalculateCommitIndex_of_quorum {t : RaftCommitTracker} {journal : RaftJournal} {index : Int}
    (hne : trgt ≠ []) (hi : (t.updateTargets trgt).quorumIndex = .ok index) :
    (t.updateTargets trgt).recalculateCommitIndex journal =
      (t.updateTargets trgt).updateCommitIndex journal index := by
  unfold RaftCommitTracker.recalculateCommitIndex
  rw [if_neg (show (t.updateTargets trgt).targets ≠ [] from hne), hi]

/-- The lease with the rank of `i`, where that is an index of the list. -/
theorem getNthLease_of_lt (l : RaftLease) (now : Int) (hne : trgt ≠ []) {n i : Nat}
    (hn : (if (trgt.length + 1 : Int) - n < 0 then 0 else (trgt.length + 1 : Int) - n) = i)
    (hi : i < trgt.length) :
    ∃ lease ∈ trgt.map l.registrations,
      (l.updateTargets trgt).getNthLease now n = .ok (lease + l.leaseDuration) ∧
      IsGreatest {t | trgt.length - i ≤ reaching (trgt.map l.registrations) t} lease := by
  have hlen : (trgt.map l.registrations).length = trgt.length := List.length_map _
  have hq : calculateQuorumSize (trgt.length + 1) ≠ 1 := by
    have := List.length_pos_iff.mpr hne
    unfold calculateQuorumSize
    omega
  obtain ⟨lease, hget, hgreatest⟩ :=
    isGreatest_insertionSort (l := trgt.map l.registrations) (by rw [hlen]; exact hi)
  rw [hlen] at hgreatest
  have hmem := (List.mem_insertionSort _).mp (List.mem_of_getElem? hget)
  refine ⟨lease, hmem, ?_, hgreatest⟩
  unfold RaftLease.getNthLease RaftLease.updateTargets
  dsimp only
  rw [if_neg hq, List.length_insertionSort, hlen, hn, Int.toNat_natCast, hget]

/-- A quorum, the leader included, was in contact when the lease started, or later. -/
theorem getDeadline_isGreatest (l : RaftLease) (now : Int) (hne : trgt ≠ []) :
    ∃ lease, (l.updateTargets trgt).getDeadline now = .ok (lease + l.leaseDuration) ∧
      IsGreatest {t | (l.updateTargets trgt).quorumSize - 1 ≤
        reaching (trgt.map l.registrations) t} lease := by
  obtain ⟨hlt, hcount⟩ := threshold_of_quorum (List.length_pos_iff.mpr hne)
  have hle : calculateQuorumSize (trgt.length + 1) ≤ trgt.length + 1 := by
    unfold calculateQuorumSize
    omega
  obtain ⟨lease, -, hl, hgreatest⟩ := getNthLease_of_lt l now hne
    (n := calculateQuorumSize (trgt.length + 1)) (by split <;> omega) hlt
  rw [hcount] at hgreatest
  exact ⟨lease, hl, hgreatest⟩

/-- With two nodes, the index would be negative: it is taken to be zero. -/
theorem getShakyQuorumDeadline_ok (l : RaftLease) (now : Int) (hne : trgt ≠ []) :
    ∃ lease ∈ trgt.map l.registrations,
      (l.updateTargets trgt).getShakyQuorumDeadline now = .ok (lease + l.leaseDuration) := by
  have hpos := List.length_pos_iff.mpr hne
  have hq : 0 < calculateQuorumSize (trgt.length + 1) := Nat.succ_pos _
  obtain ⟨lease, hmem, hl, -⟩ := getNthLease_of_lt l now hne
    (n := calculateQuorumSize (trgt.length + 1) + 1)
    (i := trgt.length - calculateQuorumSize (trgt.length + 1)) (by split <;> omega) (by omega)
  exact ⟨lease, hmem, hl⟩

end

/-! ## Elections -/

def SingleVote.grants : SingleVote → Bool
  | .vote resp => resp.vote = .GRANTED
  | _ => false

def SingleVote.vetoes : SingleVote → Bool
  | .vote resp => resp.vote = .VETO
  | _ => false

namespace RaftVoteRegistry

/-- How many nodes granted their vote. -/
def granted (contents : List SingleVote) : Nat := contents.countP SingleVote.grants

def vetoed (contents : List SingleVote) : Bool := contents.any SingleVote.vetoes

/-- In a real round, only votes that are granted count. -/
theorem positives_eq (contents : List SingleVote) :
    positives false contents = if vetoed contents then none else some (granted contents) := by
  unfold vetoed granted
  induction contents with
  | nil => rfl
  | cons sv rest ih =>
    rw [List.any_cons, List.countP_cons]
    cases sv with
    | netError =>
      unfold positives
      exact ih
    | parseError =>
      unfold positives
      rw [ih]
      split <;> simp_all [SingleVote.vetoes, SingleVote.grants]
    | vote resp =>
      unfold positives
      rw [ih]
      cases hv : resp.vote with
      | GRANTED =>
        cases hr : rest.any SingleVote.vetoes <;> simp [SingleVote.vetoes, SingleVote.grants, hv]
      | REFUSED => simp [SingleVote.vetoes, SingleVote.grants, hv]
      | VETO => simp [SingleVote.vetoes, hv]

/-- A candidate wins if more than half of the voters are for it, itself included, and none has a
veto. -/
theorem determineOutcome_kElected (contents : List SingleVote) :
    determineOutcome false contents = .kElected ↔
      contents.length + 1 < 2 * (granted contents + 1) ∧ vetoed contents = false := by
  unfold determineOutcome calculateQuorumSize
  rw [positives_eq]
  cases vetoed contents with
  | true => simp
  | false =>
    simp only [Bool.false_eq_true, if_false, and_true]
    split
    · simp only [true_iff]
      omega
    · simp only [reduceCtorEq, false_iff]
      omega

end RaftVoteRegistry

/-- The three computations are right for each set of targets: the index that is committed is the
greatest that a quorum has reached, and a majority with the leader; the lease runs from the
latest time when a quorum was in contact, and the lease of a shaky quorum is that of a target;
a candidate is elected if and only if a majority is for it and none has a veto. -/
theorem quorums_are_majorities (t : RaftCommitTracker) (journal : RaftJournal) (l : RaftLease)
    (now : Int) (contents : List SingleVote) {trgt : List RaftServer} (hne : trgt ≠ []) :
    (∃ index,
      (t.updateTargets trgt).recalculateCommitIndex journal =
        (t.updateTargets trgt).updateCommitIndex journal index ∧
      (t.updateTargets trgt).quorumIndex = .ok index ∧
      IsGreatest {m | (t.updateTargets trgt).quorumSize - 1 ≤
        reaching (trgt.map t.registrations) m} index ∧
      trgt.length + 1 < 2 * (reaching (trgt.map t.registrations) index + 1)) ∧
    (∃ lease, (l.updateTargets trgt).getDeadline now = .ok (lease + l.leaseDuration) ∧
      IsGreatest {t | (l.updateTargets trgt).quorumSize - 1 ≤
        reaching (trgt.map l.registrations) t} lease) ∧
    (∃ lease ∈ trgt.map l.registrations,
      (l.updateTargets trgt).getShakyQuorumDeadline now = .ok (lease + l.leaseDuration)) ∧
    (RaftVoteRegistry.determineOutcome false contents = .kElected ↔
      contents.length + 1 < 2 * (RaftVoteRegistry.granted contents + 1) ∧
        RaftVoteRegistry.vetoed contents = false) := by
  obtain ⟨index, hi, hgreatest⟩ := quorumIndex_isGreatest t hne
  refine ⟨⟨index, recalculateCommitIndex_of_quorum hne hi, hi, hgreatest, ?_⟩,
    getDeadline_isGreatest l now hne, getShakyQuorumDeadline_ok l now hne,
    RaftVoteRegistry.determineOutcome_kElected contents⟩
  exact majority_of_quorum hgreatest.1

/-- The targets hold 5 and 7 entries: a majority holds 7. -/
theorem a_majority_of_three_has_reached_seven :
    let trgt : List RaftServer := [⟨ascii "s2", 7777⟩, ⟨ascii "s3", 7778⟩]
    let t : RaftCommitTracker :=
      { targets := [], quorumSize := 0, registrations := fun s => if s.port = 7777 then 5 else 7,
        commitIndex := 0, autoCommitter := false }
    ∃ journal, RaftJournal.obliterate (ascii "id") (⟨ascii "s1", 7776⟩ :: trgt) 0 = .ok journal ∧
      (t.updateTargets trgt).recalculateCommitIndex journal =
        (t.updateTargets trgt).updateCommitIndex journal 7 ∧
      IsGreatest {m | 1 ≤ reaching (trgt.map t.registrations) m} 7 := by
  intro trgt t
  obtain ⟨journal, hj⟩ : ∃ journal,
      RaftJournal.obliterate (ascii "id") (⟨ascii "s1", 7776⟩ :: trgt) 0 = .ok journal := ⟨_, rfl⟩
  obtain ⟨⟨index, hrec, hi, hgreatest, -⟩, -⟩ := quorums_are_majorities t journal
    (RaftLease.new trgt 1000) 0 [] (show trgt ≠ [] by decide)
  have hseven : (t.updateTargets trgt).quorumIndex = .ok 7 := by decide +kernel
  rw [hi] at hseven
  cases hseven
  rw [show (t.updateTargets trgt).quorumSize - 1 = 1 by decide +kernel] at hgreatest
  exact ⟨journal, hj, hrec, hgreatest⟩

end quarkdb
