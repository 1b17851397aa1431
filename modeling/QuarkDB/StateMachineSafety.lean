-- What is committed stays: in every run of a cluster with fixed members, no two nodes commit
-- different entries at one index, and a later leader has what was committed.
import QuarkDB.ReplicationRuns

namespace quarkdb

open RaftJournal (Good)
open RaftState (Later)
open Chains (Made Over Path)
open Ballots (Chosen)

namespace Cluster

/-! ## Runs -/

/-- No tracker sends in the run when its snapshot is no longer that of its node. -/
def sendsInTime (c : Cluster) : List ClusterStep → Bool
  | [] => true
  | x :: xs =>
    c.sendsCurrent x &&
      match c.step x with
      | some c' => c'.sendsInTime xs
      | none => true

variable {members : RaftMembers} {base : Int} {c c' : Cluster} {P : Past} {first : RaftEntry}

/-- What holds of the past and the cluster after each step, as it holds before, holds after a run
that keeps the members and sends in time. -/
theorem Recalled.run {I : Past → Cluster → Prop} (hr : Recalled P members first base c)
    (hI : I P c) (hnext : ∀ {P c c' n node made x},
      Advance P members first base c c' n node made → Move c x c' n node → Beats c c' n →
        c.sendsCurrent x → I P c → I (P.next made first.term c') c')
    {steps : List ClusterStep} (hk : ∀ x ∈ steps, x.KeepsMembers) (hx : c.sendsInTime steps)
    (hrun : c.runAll steps = some c') : ∃ P' : Past,
      (∀ i p e, P.made i p e → P'.made i p e) ∧ (∀ v T k, P.held v T k → P'.held v T k) ∧
      Recalled P' members first base c' ∧ I P' c' := by
  induction steps generalizing c P with
  | nil =>
    obtain rfl : c = c' := by simpa [runAll] using hrun
    exact ⟨P, fun _ _ _ => id, fun _ _ _ => id, hr, hI⟩
  | cons x xs ih =>
    obtain ⟨c1, h1, hrun⟩ := Option.bind_eq_some_iff.mp hrun
    unfold sendsInTime at hx
    rw [h1] at hx
    obtain ⟨hx1, hx2⟩ := Bool.and_eq_true_iff.mp hx
    obtain ⟨n, node, made, hA, hm, hb⟩ := hr.advance (hk x (by simp)) h1
    obtain ⟨P', hmade, hheld, hr', hI'⟩ := ih (hA.recalled_next hm hx1)
      (hnext hA hm hb hx1 hI) (fun y hy => hk y (by simp [hy])) hx2 hrun
    exact ⟨P', fun i p e he => hmade i p e (hA.subset i p e he),
      fun v T k hv => hheld v T k (.inl hv), hr', hI'⟩

theorem Tracked.run (hT : Tracked P members base c) (hr : Recalled P members first base c)
    {steps : List ClusterStep} (hk : ∀ x ∈ steps, x.KeepsMembers) (hx : c.sendsInTime steps)
    (hrun : c.runAll steps = some c') : ∃ P' : Past,
      (∀ i p e, P.made i p e → P'.made i p e) ∧ (∀ v T k, P.held v T k → P'.held v T k) ∧
      Recalled P' members first base c' ∧ Tracked P' members base c' :=
  hr.run (I := fun P c => Tracked P members base c) hT
    (fun hA hm _ hx hT => hA.tracked_next hT hm hx) hk hx hrun

theorem tracked_created {clusterID : RaftClusterID} {nodes : List RaftServer} {startIndex : Int}
    {journal : RaftJournal} (hnew : RaftJournal.obliterate clusterID nodes startIndex = .ok journal)
    (P : Past) : Tracked P journal.members startIndex (created journal) where
  committed _ := .inl (le_of_eq (obliterate_fresh hnew).2)
  requests m hm := by cases hm
  replies m hm := by cases hm
  trackers n target r t ht := by cases (trackerOf_some ht).1
  counts n r hr := by cases hr
  alone n hauto := by
    have hq : calculateQuorumSize (journal.members.nodes.length + 1) = 1 := of_decide_eq_true hauto
    unfold calculateQuorumSize at hq
    have hnil := List.eq_nil_of_length_eq_zero (l := journal.members.nodes) (by omega)
    rw [hnil]
    exact fun s hs => by cases hs

/-! ## What is committed -/

/-- What a node has committed lies below something that was chosen in its term or before. -/
theorem Tracked.decided (hT : Tracked P members base c) (hr : Recalled P members first base c)
    {n : RaftServer} {i : Int} {e : RaftEntry} (hb : base < i)
    (hi : i ≤ (c.node n).state.journal.commitIndex)
    (he : (c.node n).state.journal.db.entries i = some e) :
    ∃ m T, T ≤ (c.node n).state.term ∧ Chosen RaftEntry.term members.nodes P.record m T ∧
      Over RaftEntry.term P.made m T i e.term := by
  have hg := hr.good n
  rcases hT.committed n with hle | ⟨m, T, -, h2, h3, h4⟩
  · omega
  · obtain ⟨last, hlast⟩ := Option.isSome_iff_exists.mp
      ((hg.stored (c.node n).state.journal.commitIndex).mpr ⟨hg.start_le_commit, hg.commit_lt_size⟩)
    have hover := (hr.written.logs n).over_last hg (hr.base_le n) hlast
    have hbelow := (hr.written.logs n).over_last hg (hr.base_le n) he
    exact ⟨m, T, h2, h3, (h4 last hlast).trans (hover.linear hr.written.single hbelow hi)⟩

theorem Recalled.eq_first (hr : Recalled P members first base c) {n : RaftServer} {i : Int}
    {e : RaftEntry} (hb : ¬ base < i) (he : (c.node n).state.journal.db.entries i = some e) :
    i = base ∧ e = first := by
  have hin := ((hr.good n).stored i).mp (by rw [he]; rfl)
  have hle := hr.base_le n
  obtain rfl : i = base := by omega
  exact ⟨rfl, hr.written.at_base n e he⟩

/-- Entries of one term at one index are the same. -/
theorem Recalled.eq_of_term (hr : Recalled P members first base c) {c0 : Cluster} {P0 : Past}
    (hr0 : Recalled P0 members first base c0) (hmade : ∀ i p e, P0.made i p e → P.made i p e)
    {n m : RaftServer} {i : Int} {e e' : RaftEntry} (hb : base < i)
    (he : (c0.node n).state.journal.db.entries i = some e)
    (he' : (c.node m).state.journal.db.entries i = some e') (ht : e.term = e'.term) : e = e' := by
  obtain ⟨p, hp, -⟩ := hr0.written.logs n i e hb he
  obtain ⟨p', hp', -⟩ := hr.written.logs m i e' hb he'
  exact (hr.written.single i p p' e e' (hmade i p e hp) hp' ht).2

/-! ## A run of three nodes -/

/-- The first of three nodes is elected, and replicates its marker to the second. -/
def replicateMarker : List ClusterStep :=
  [.runForLeader ⟨ascii "s1", 7776⟩, .requestVote 0, .registerVote ⟨ascii "s1", 7776⟩ 0,
    .concludeElection ⟨ascii "s1", 7776⟩, .activate ⟨ascii "s1", 7776⟩,
    .checkSnapshot ⟨ascii "s1", 7776⟩ ⟨ascii "s2", 7776⟩,
    .sendPayload ⟨ascii "s1", 7776⟩ ⟨ascii "s2", 7776⟩, .appendEntries 0 0,
    .retrieve ⟨ascii "s1", 7776⟩ ⟨ascii "s2", 7776⟩ 0,
    .checkSnapshot ⟨ascii "s1", 7776⟩ ⟨ascii "s2", 7776⟩,
    .sendPayload ⟨ascii "s1", 7776⟩ ⟨ascii "s2", 7776⟩, .appendEntries 1 0,
    .retrieve ⟨ascii "s1", 7776⟩ ⟨ascii "s2", 7776⟩ 1]

/-- The second node learns that the marker is committed. -/
def commitMarker : List ClusterStep :=
  [.checkSnapshot ⟨ascii "s1", 7776⟩ ⟨ascii "s2", 7776⟩,
    .sendPayload ⟨ascii "s1", 7776⟩ ⟨ascii "s2", 7776⟩, .appendEntries 2 0]

/-- The second node wins the next election, with the vote of the third. -/
def electSecond : List ClusterStep :=
  [.runForLeader ⟨ascii "s2", 7776⟩, .requestVote 3, .registerVote ⟨ascii "s2", 7776⟩ 1,
    .concludeElection ⟨ascii "s2", 7776⟩]

/-- What the runs above leave. -/
structure MarkerRuns (new : RaftJournal) (c c2 c3 : Cluster) : Prop where
  created : RaftJournal.obliterate (ascii "id")
    [⟨ascii "s1", 7776⟩, ⟨ascii "s2", 7776⟩, ⟨ascii "s3", 7776⟩] 0 = .ok new
  named : ∀ s ∈ new.members.nodes, s.empty = false
  unblocked : RaftServer.BLOCKED_VOTE ∉ new.members.nodes
  in_time : (Cluster.created new).sendsInTime replicateMarker = true
  replicated : (Cluster.created new).runAll replicateMarker = some c
  in_time2 : c.sendsInTime commitMarker = true
  committed : c.runAll commitMarker = some c2
  in_time3 : c.sendsInTime electSecond = true
  elected : c.runAll electSecond = some c3

theorem markerRuns : ∃ new c c2 c3, MarkerRuns new c c2 c3 ∧
    (c.node ⟨ascii "s1", 7776⟩).state.journal.commitIndex = 1 ∧
    (c.node ⟨ascii "s1", 7776⟩).state.term = 1 ∧
    (∃ e, (c.node ⟨ascii "s1", 7776⟩).state.journal.fetch 1 = some e) ∧
    (c2.node ⟨ascii "s2", 7776⟩).state.journal.commitIndex = 1 ∧
    (∃ e, (c2.node ⟨ascii "s2", 7776⟩).state.journal.fetch 1 = some e) ∧
    (c3.node ⟨ascii "s2", 7776⟩).state.status = .LEADER ∧
    (c3.node ⟨ascii "s2", 7776⟩).state.term = 2 ∧
    (c3.node ⟨ascii "s2", 7776⟩).state.journal.logStart = 0 ∧
    (∃ req, (⟨ascii "s2", 7776⟩, req) ∈ c.appendRequests) ∧
    (c.node ⟨ascii "s2", 7776⟩).state.journal.commitIndex = 0 := by
  have hrun : ((RaftJournal.obliterate (ascii "id")
        [⟨ascii "s1", 7776⟩, ⟨ascii "s2", 7776⟩, ⟨ascii "s3", 7776⟩] 0).toOption.bind fun new =>
      ((created new).runAll replicateMarker).bind fun c =>
      (c.runAll commitMarker).bind fun c2 => (c.runAll electSecond).map fun c3 =>
      [!new.members.nodes.any RaftServer.empty, RaftServer.BLOCKED_VOTE ∉ new.members.nodes,
        (created new).sendsInTime replicateMarker, c.sendsInTime commitMarker,
        c.sendsInTime electSecond, (c.node ⟨ascii "s1", 7776⟩).state.journal.commitIndex = 1,
        (c.node ⟨ascii "s1", 7776⟩).state.term = 1,
        ((c.node ⟨ascii "s1", 7776⟩).state.journal.fetch 1).isSome,
        (c2.node ⟨ascii "s2", 7776⟩).state.journal.commitIndex = 1,
        ((c2.node ⟨ascii "s2", 7776⟩).state.journal.fetch 1).isSome,
        (c3.node ⟨ascii "s2", 7776⟩).state.status = .LEADER,
        (c3.node ⟨ascii "s2", 7776⟩).state.term = 2,
        (c3.node ⟨ascii "s2", 7776⟩).state.journal.logStart = 0,
        ⟨ascii "s2", 7776⟩ ∈ c.appendRequests.map Prod.fst,
        (c.node ⟨ascii "s2", 7776⟩).state.journal.commitIndex = 0].all id) = some true := by
    decide +kernel
  obtain ⟨new, hnew, hrun⟩ := Option.bind_eq_some_iff.mp hrun
  obtain ⟨c, hc, hrun⟩ := Option.bind_eq_some_iff.mp hrun
  obtain ⟨c2, hc2, hrun⟩ := Option.bind_eq_some_iff.mp hrun
  obtain ⟨c3, hc3, hrun⟩ := Option.map_eq_some_iff.mp hrun
  simp only [List.all_cons, List.all_nil, id_eq, Bool.and_true, Bool.and_eq_true,
    decide_eq_true_eq, Option.isSome_iff_exists] at hrun
  obtain ⟨h1, h2, h3, h4, h5, h6, h7, h8, h9, h10, h11, h12, h13, h14, h15⟩ := hrun
  obtain ⟨⟨_, req⟩, hmem, rfl⟩ := List.mem_map.mp h14
  have hnew : RaftJournal.obliterate (ascii "id")
      [⟨ascii "s1", 7776⟩, ⟨ascii "s2", 7776⟩, ⟨ascii "s3", 7776⟩] 0 = .ok new := by
    cases hj : RaftJournal.obliterate (ascii "id")
      [⟨ascii "s1", 7776⟩, ⟨ascii "s2", 7776⟩, ⟨ascii "s3", 7776⟩] 0 with
    | error e => simp [hj, Except.toOption] at hnew
    | ok j => simpa [hj, Except.toOption] using hnew
  exact ⟨new, c, c2, c3, ⟨hnew, by simpa using h1, h2, h3, hc, h4, hc2, h5, hc3⟩,
    h6, h7, h8, h9, h10, h11, h12, h13, ⟨req, hmem⟩, h15⟩

section

variable {clusterID : RaftClusterID} {nodes : List RaftServer} {startIndex : Int}
  {journal : RaftJournal} {steps more : List ClusterStep} {n m : RaftServer} {i : Int}
  {e e' : RaftEntry}

/-- In every run with fixed members, of which each has a name, in which no tracker sends after its
snapshot has changed and no write is appended under an old one: what two nodes have committed at
an index, at any two points of the run, is one entry. -/
theorem committed_entries_agree (h0 : 0 ≤ startIndex)
    (hnew : RaftJournal.obliterate clusterID nodes startIndex = .ok journal)
    (hnamed : ∀ s ∈ journal.members.nodes, s.empty = false)
    (hblocked : RaftServer.BLOCKED_VOTE ∉ journal.members.nodes)
    (hsteps : ∀ x ∈ steps, x.KeepsMembers) (hmore : ∀ x ∈ more, x.KeepsMembers)
    (htime : (created journal).sendsInTime steps) (htime' : c.sendsInTime more)
    (hc : (created journal).runAll steps = some c) (hc' : c.runAll more = some c')
    (hi : i ≤ (c.node n).state.journal.commitIndex)
    (hi' : i ≤ (c'.node m).state.journal.commitIndex)
    (he : (c.node n).state.journal.fetch i = some e)
    (he' : (c'.node m).state.journal.fetch i = some e') : e = e' := by
  obtain ⟨first, hr⟩ := recalled_created h0 hnew hnamed hblocked
  obtain ⟨P, -, -, hr, hT⟩ := (tracked_created hnew _).run hr hsteps htime hc
  obtain ⟨P', hmade, hheld, hr', hT'⟩ := hT.run hr hmore htime' hc'
  by_cases hb : startIndex < i
  · obtain ⟨k, T, -, hchosen, hover⟩ := hT.decided hr hb hi he
    obtain ⟨k', T', -, hchosen', hover'⟩ := hT'.decided hr' hb hi' he'
    exact hr'.eq_of_term hr hmade hb he he' (hr'.lawful.decided_unique
      ⟨k, T, hchosen.mono hmade hheld, hover.mono hmade⟩ ⟨k', T', hchosen', hover'⟩)
  · rw [(hr.eq_first hb he).2, (hr'.eq_first hb he').2]

/-- The first node and the second have committed one marker. -/
theorem the_marker_is_one : ∃ new c c2 c3, MarkerRuns new c c2 c3 ∧
    ∃ e, (c.node ⟨ascii "s1", 7776⟩).state.journal.fetch 1 = some e ∧
      (c2.node ⟨ascii "s2", 7776⟩).state.journal.fetch 1 = some e := by
  obtain ⟨new, c, c2, c3, h, h1, -, ⟨e, he⟩, h2, ⟨e2, he2⟩, -⟩ := markerRuns
  obtain rfl := committed_entries_agree (le_refl 0) h.created h.named h.unblocked
    (by simp [replicateMarker, ClusterStep.KeepsMembers])
    (by simp [commitMarker, ClusterStep.KeepsMembers]) h.in_time h.in_time2 h.replicated h.committed
    (le_of_eq h1.symm) (le_of_eq h2.symm) he he2
  exact ⟨new, c, c2, c3, h, e, he, he2⟩

/-- In such a run, a leader has what any node had committed before in its term or an earlier one,
where its journal still reaches down to it. -/
theorem a_leader_has_what_was_committed (h0 : 0 ≤ startIndex)
    (hnew : RaftJournal.obliterate clusterID nodes startIndex = .ok journal)
    (hnamed : ∀ s ∈ journal.members.nodes, s.empty = false)
    (hblocked : RaftServer.BLOCKED_VOTE ∉ journal.members.nodes)
    (hsteps : ∀ x ∈ steps, x.KeepsMembers) (hmore : ∀ x ∈ more, x.KeepsMembers)
    (htime : (created journal).sendsInTime steps) (htime' : c.sendsInTime more)
    (hc : (created journal).runAll steps = some c) (hc' : c.runAll more = some c')
    (hi : i ≤ (c.node n).state.journal.commitIndex)
    (he : (c.node n).state.journal.fetch i = some e)
    (hl : (c'.node m).state.status = .LEADER)
    (ht : (c.node n).state.term ≤ (c'.node m).state.term) :
    i < (c'.node m).state.journal.logSize ∧
      ((c'.node m).state.journal.logStart ≤ i → (c'.node m).state.journal.fetch i = some e) := by
  obtain ⟨first, hr⟩ := recalled_created h0 hnew hnamed hblocked
  obtain ⟨P, -, -, hr, hT⟩ := (tracked_created hnew _).run hr hsteps htime hc
  obtain ⟨P', hmade, hheld, hr', hT'⟩ := hT.run hr hmore htime' hc'
  have hended := hr'.ended m hl
  by_cases hb : startIndex < i
  swap
  · obtain ⟨rfl, rfl⟩ := hr.eq_first hb he
    refine ⟨by omega, fun hs => ?_⟩
    obtain ⟨e', he'⟩ := Option.isSome_iff_exists.mp (((hr'.good m).stored i).mpr ⟨hs, by omega⟩)
    obtain ⟨-, rfl⟩ := hr'.eq_first hb he'
    exact he'
  obtain ⟨k, T, hT1, hchosen, hover⟩ := hT.decided hr hb hi he
  have hchosen : Chosen RaftEntry.term journal.members.nodes P'.record k T :=
    hchosen.mono hmade hheld
  have hlast := hr'.leader_made hl
  -- What was chosen lies below the last entry of the leader.
  have hbelow : Over RaftEntry.term P'.made ((c'.node m).state.journal.logSize - 1)
      (c'.node m).state.term k T := by
    rcases eq_or_lt_of_le (le_trans hT1 ht) with rfl | hlt
    · obtain ⟨p, f, hf, hft⟩ := hchosen.1
      obtain ⟨a, hled, hahead⟩ := hr'.written.makers k p f hf
      rw [hft] at hled hahead
      obtain rfl := hr'.written.led_unique hr'.elections.polled hled
        (hr'.elections.backed.leaders m hl)
      have hlt := hahead hl rfl
      exact hr'.lawful.unbroken.over hlast hchosen.1 (by omega)
    · obtain ⟨p, f, hf, hft⟩ := hlast
      rw [← hft] at hlt ⊢
      exact hr'.lawful.complete hchosen f.term _ p f hf hlt (le_refl _)
  have hover := hbelow.trans (hover.mono hmade)
  have hle := hover.le
  refine ⟨by omega, fun hs => ?_⟩
  rw [← hended.2] at hover
  obtain ⟨e', he', hterm⟩ := (hr'.written.logs m).entry_of_over hr'.written.single (hr'.good m)
    (hr'.base_le m) hs hover
  obtain rfl := hr'.eq_of_term hr hmade hb he he' hterm.symm
  exact he'

/-- The second node leads the next term, with the marker of the first. -/
theorem the_second_leader_has_the_marker : ∃ new c c2 c3, MarkerRuns new c c2 c3 ∧
    ∃ e, (c.node ⟨ascii "s1", 7776⟩).state.journal.fetch 1 = some e ∧
      (c3.node ⟨ascii "s2", 7776⟩).state.journal.fetch 1 = some e := by
  obtain ⟨new, c, c2, c3, h, h1, h2, ⟨e, he⟩, -, -, h3, h4, h5, -⟩ := markerRuns
  refine ⟨new, c, c2, c3, h, e, he, ?_⟩
  exact (a_leader_has_what_was_committed (le_refl 0) h.created h.named h.unblocked
    (by simp [replicateMarker, ClusterStep.KeepsMembers])
    (by simp [electSecond, ClusterStep.KeepsMembers]) h.in_time h.in_time3 h.replicated h.elected
    (le_of_eq h1.symm) he h3 (by rw [h2, h4]; decide)).2 (by rw [h5]; decide)

end

end Cluster

end quarkdb
