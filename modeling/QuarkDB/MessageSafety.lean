-- No message makes a node throw: in every run of a cluster with fixed members, each request that
-- reaches a node is answered. The checks of the dispatcher that end a node never fire.
import QuarkDB.StateMachineSafety

namespace quarkdb

open RaftJournal (Good)
open RaftState (Later)
open Chains (Made Over Path)

/-! ## The handlers -/

namespace RaftJournal

theorem appendNoLock_returns {j : RaftJournal} (h : Good j) (index : Int) {entry : RaftEntry}
    (hm : isMembersUpdate entry.request = false) (hne : entry.request ≠ []) :
    ∃ appended, ((appendNoLock index entry).on j).1 = .ok appended := by
  by_cases h1 : index ≠ j.logSize
  · exact ⟨false, by simp [appendNoLock, h1]⟩
  by_cases h2 : j.currentTerm < entry.term
  · exact ⟨false, by simp [appendNoLock, h2]⟩
  by_cases h3 : entry.term < j.termOfLastEntry
  · exact ⟨false, by simp [appendNoLock, h2, h3]⟩
  obtain rfl : index = j.logSize := not_not.mp h1
  exact ⟨true, by rw [appendNoLock_other h.commit_lt_size (size_nonneg h) (not_lt.mp h2)
    (not_lt.mp h3) hne hm]⟩

/-- A removal above the members that were set last touches nothing but entries. -/
theorem removeEntries_returns {j : RaftJournal} (h : Good j) {first : Int}
    (hc : j.commitIndex < first) (he : j.membershipEpoch < first) :
    ∃ removed, ((removeEntries first).on j).1 = .ok removed := by
  have hstart := h.start_nonneg
  have hcommit := h.start_le_commit
  by_cases h1 : j.logSize ≤ first
  · exact ⟨false, by simp [removeEntries, h1]⟩
  obtain ⟨entry, hentry⟩ := Option.isSome_iff_exists.mp
    ((h.stored (first - 1)).mpr ⟨by omega, by omega⟩)
  have h2 : ¬ first ≤ j.commitIndex := by omega
  have h3 : ¬ first ≤ j.membershipEpoch := by omega
  have h4 : ¬ first ≤ first - 1 := by omega
  have hf : 0 ≤ first := by omega
  have hne : first ≠ j.logSize := by omega
  refine ⟨true, ?_⟩
  unfold removeEntries
  simp [h1, h2, h3, commitBatch_on, hf, hne, write_append, write_deleteRange, Except.map]
  simp [JournalDB.write, JournalDB.put, fetchOrDie, fetch, hentry, h4]

end RaftJournal

namespace RaftDispatcher

/-- The request follows an entry of the journal, and differs from it at an index that is
committed: the node throws. -/
def Contradicts (j : RaftJournal) (req : RaftAppendEntriesRequest) : Prop :=
  j.matchEntries req.prevIndex req.prevTerm = true ∧
    ∃ first, j.compareEntries (req.prevIndex + 1) req.entries = .ok first ∧
      first - (req.prevIndex + 1) < req.entries.length ∧ first ≤ j.commitIndex

/-- Entries that have a request, none of them about members. -/
def Plain (entries : List RaftEntry) : Prop :=
  ∀ e ∈ entries, RaftJournal.isMembersUpdate e.request = false ∧ e.request ≠ []

theorem appendLoop_returns {j : RaftJournal} (h : Good j) (index : Int)
    {entries : List RaftEntry} (hp : Plain entries) :
    ∃ appended, ((appendLoop index entries).on j).1 = .ok appended := by
  induction entries generalizing j index with
  | nil => exact ⟨true, rfl⟩
  | cons entry rest ih =>
    obtain ⟨hm, hne⟩ := hp entry (by simp)
    obtain ⟨appended, ha⟩ := RaftJournal.appendNoLock_returns h index hm hne
    have hg := (RaftJournal.good_appendNoLock h index entry .reopen).1
    unfold appendLoop RaftJournal.append
    rw [Call.on_bind]
    generalize (RaftJournal.appendNoLock index entry).on j = r at ha hg ⊢
    obtain ⟨r, j'⟩ := r
    cases ha
    cases appended with
    | false => exact ⟨false, rfl⟩
    | true => exact ih hg (index + 1) fun e he => hp e (by simp [he])

theorem overwrite_returns {j : RaftJournal} (h : Good j) {first : Int}
    (hc : j.commitIndex < first) (he : j.membershipEpoch < first) {entries : List RaftEntry}
    (hp : Plain entries) : ∃ appended, ((overwrite first entries).on j).1 = .ok appended := by
  obtain ⟨removed, hr⟩ := RaftJournal.removeEntries_returns h hc he
  have hg := (RaftJournal.good_removeEntries h first .reopen).1
  unfold overwrite
  rw [Call.on_bind]
  generalize (RaftJournal.removeEntries first).on j = r at hr hg ⊢
  obtain ⟨r, j'⟩ := r
  cases hr
  exact appendLoop_returns hg first hp

/-- Entries that contradict nothing are taken or refused. -/
theorem receiveEntries_returns {j : RaftJournal} (h : Good j) {lastApplied : Int}
    (ha : lastApplied ≤ j.commitIndex) (he : j.membershipEpoch ≤ j.commitIndex)
    {req : RaftAppendEntriesRequest} (hp : Plain req.entries) (hn : ¬ Contradicts j req) :
    ∃ answer, ((receiveEntries lastApplied req).on j).1 = .ok answer := by
  cases hm : j.matchEntries req.prevIndex req.prevTerm with
  | false => exact ⟨(false, ascii "Log entry mismatch"), by simp [receiveEntries, hm]⟩
  | true =>
    obtain ⟨hp1, hp2, -⟩ := matchEntries_true h hm
    obtain ⟨first, hf, -⟩ := compareEntries_spec h req.entries hp1 hp2
    by_cases h1 : first - (req.prevIndex + 1) < req.entries.length
    · have h2 : ¬ first ≤ j.commitIndex := fun hle => hn ⟨hm, first, hf, h1, hle⟩
      have h3 : ¬ (first ≠ j.logSize ∧ first ≤ lastApplied) := by omega
      have hrest : Plain (req.entries.drop (first - (req.prevIndex + 1)).toNat) :=
        fun e he => hp e (List.mem_of_mem_drop he)
      have hc : j.commitIndex < first := by omega
      obtain ⟨appended, ho⟩ := overwrite_returns h hc (by omega) hrest
      have hg := (good_overwrite h first
        (req.entries.drop (first - (req.prevIndex + 1)).toNat)).1
      generalize hov : (overwrite first
        (req.entries.drop (first - (req.prevIndex + 1)).toNat)).on j = ov at ho hg
      obtain ⟨r, j'⟩ := ov
      cases ho
      cases appended with
      | false =>
        exact ⟨(false, ascii "Unknown error"), by simp [receiveEntries, hm, hf, h1, h2, h3, hov]⟩
      | true =>
        have hend : (receiveEntries lastApplied req).on j = (finishReceive req.commitIndex).on j' :=
          by simp [receiveEntries, finishReceive, hm, hf, h1, h2, h3, hov]
        exact ⟨(true, []), by rw [hend, finishReceive_on hg]⟩
    · have hend : (receiveEntries lastApplied req).on j = (finishReceive req.commitIndex).on j := by
        simp [receiveEntries, finishReceive, hm, hf, h1]
      exact ⟨(true, []), by rw [hend, finishReceive_on h]⟩

theorem observed_up {s : RaftState} (hup : s.status ≠ .SHUTDOWN) (term : Int)
    (leader : RaftServer) : term ≤ (s.observed term leader).2.term := by
  unfold RaftState.observed
  rw [if_neg hup]
  by_cases h1 : s.term < term
  · rw [if_pos h1]
    exact le_refl term
  rw [if_neg h1]
  split
  · split <;> exact not_lt.mp h1
  · exact not_lt.mp h1

/-- A node in the term of a leader recognizes no other one. -/
theorem observed_leader {s : RaftState} (hup : s.status ≠ .SHUTDOWN) {term : Int}
    {leader : RaftServer} (hl : s.term = term → s.leader.empty = false → s.leader = leader)
    (ht : (s.observed term leader).2.term = term) :
    (s.observed term leader).2.leader = leader := by
  unfold RaftState.observed at ht ⊢
  rw [if_neg hup] at ht ⊢
  by_cases h1 : s.term < term
  · rw [if_pos h1]
    rfl
  rw [if_neg h1] at ht ⊢
  by_cases h2 : term = s.term ∧ s.leader.empty
  · rw [if_pos h2]
    split <;> rfl
  · rw [if_neg h2] at ht ⊢
    exact hl ht (by simpa [ht.symm] using h2)

theorem heartbeat_returns {s : RaftState} (hup : s.status ≠ .SHUTDOWN)
    {req : RaftHeartbeatRequest} (hme : req.leader ≠ s.myself)
    (hl : s.term = req.term → s.leader.empty = false → s.leader = req.leader) :
    ∃ resp, ((heartbeat req).on s).1 = .ok resp := by
  have hterm := observed_up hup req.term req.leader
  have hleader := observed_leader hup hl
  rw [heartbeat_on, if_neg hme]
  generalize (s.observed req.term req.leader).2 = s' at hterm hleader ⊢
  unfold recognize RaftState.getSnapshot
  by_cases h1 : s'.status = .SHUTDOWN
  · exact ⟨_, if_pos h1⟩
  by_cases h2 : req.term < s'.term
  · exact ⟨_, by simp [h1, h2]; rfl⟩
  have heq : s'.term = req.term := by omega
  exact ⟨_, by simp [h1, heq, hleader heq]; rfl⟩

theorem appendEntries_returns {s : RaftState} {lastApplied : Int} {req : RaftAppendEntriesRequest}
    (hup : s.status ≠ .SHUTDOWN) (hme : req.leader ≠ s.myself)
    (hl : s.term = req.term → s.leader.empty = false → s.leader = req.leader)
    (hr : (s.observed req.term req.leader).2.term = req.term → ∃ answer,
      ((receiveEntries lastApplied req).on
        (s.observed req.term req.leader).2.journal).1 = .ok answer) :
    ∃ resp, ((appendEntries lastApplied req).on s).1 = .ok resp := by
  obtain ⟨resp, hb⟩ : ∃ resp, ((heartbeat ⟨req.term, req.leader⟩).on s).1 = .ok resp :=
    heartbeat_returns hup hme hl
  rw [heartbeat_on, if_neg hme] at hb
  obtain ⟨-, hrec⟩ := recognize_leader hb
  unfold appendEntries
  rw [Call.on_bind, heartbeat_on, if_neg hme]
  generalize (s.observed req.term req.leader).2 = s' at hr hb hrec ⊢
  dsimp only at hb ⊢
  rw [hb]
  cases hn : resp.nodeRecognizedAsLeader with
  | false => exact ⟨_, by simp [hn]; rfl⟩
  | true =>
    obtain ⟨answer, ha⟩ := hr (hrec hn).2.1
    generalize hq : (receiveEntries lastApplied req).on s'.journal = q at ha
    obtain ⟨r, j⟩ := q
    cases ha
    exact ⟨_, by simp [hn, onJournal, hq]; rfl⟩

theorem requestVote_returns {s : RaftState} (hup : s.status ≠ .SHUTDOWN) {req : RaftVoteRequest}
    (hme : req.candidate ≠ s.myself) : ∃ resp, (requestVote s req false).1 = .ok resp := by
  have hterm := observed_up hup req.term {}
  unfold requestVote
  rw [if_neg hme]
  by_cases h1 : req.candidate ∉ s.getNodes ∧ !s.leader.empty
  · exact ⟨_, by rw [if_pos h1]⟩
  rw [if_neg h1]
  simp only [Bool.false_eq_true, if_false]
  generalize (s.observed req.term {}).2 = s' at hterm ⊢
  have hr : ∃ answer, refuses s' req false = .ok answer := by
    unfold refuses
    split
    · exact ⟨_, rfl⟩
    by_cases h2 : req.term < s'.term
    · exact ⟨_, if_pos h2⟩
    · have heq : s'.term = req.term := by omega
      simp only [heq, lt_self_iff_false, if_false, Bool.not_false, ne_eq, not_true_eq_false,
        and_false, true_and]
      split
      · exact ⟨_, rfl⟩
      split <;> exact ⟨_, rfl⟩
  obtain ⟨answer, hr⟩ := hr
  unfold answerVote
  rw [hr]
  cases answer with
  | some vote => exact ⟨_, rfl⟩
  | none =>
    simp only [Bool.false_eq_true, if_false]
    split <;> exact ⟨_, rfl⟩

end RaftDispatcher

namespace Cluster

/-! ## Who a message names -/

/-- Every message names the leader, or the candidate, that sent it to another node. -/
structure Addressed (P : Past) (c : Cluster) : Prop where
  worded : ∀ i p e, P.made i p e → e.request ≠ []
  heeded : ∀ n, (c.node n).state.leader.empty = false →
    P.led (c.node n).state.term (c.node n).state.leader
  replicators : ∀ n r, (c.node n).replicator = some r →
    P.led r.snapshot.term n ∧ n ∉ r.targets.map Prod.fst
  asked : ∀ m ∈ c.voteRequests, m.2.candidate ≠ m.1
  requests : ∀ m ∈ c.appendRequests, P.led m.2.term m.2.leader ∧ m.2.leader ≠ m.1
  heartbeats : ∀ m ∈ c.heartbeats, P.led m.2.term m.2.leader ∧ m.2.leader ≠ m.1

variable {members : RaftMembers} {base : Int} {c c' : Cluster} {n : RaftServer} {node : RaftNode}
  {P : Past} {first : RaftEntry} {made : Int → Int → RaftEntry → Prop}

theorem target_mem {target : RaftServer} {r : RaftReplicator} {t : RaftReplicaTracker}
    (h : c.trackerOf n target = some (r, t)) : target ∈ r.targets.map Prod.fst := by
  obtain ⟨before, after, hmem, -⟩ := List.lookup_eq_some_iff.mp (trackerOf_some h).2
  rw [hmem]
  simp

/-- What a tracker sends names its leader, and goes to another node. -/
theorem Addressed.tracker (hA : Addressed P c) {target : RaftServer} {r : RaftReplicator}
    {t : RaftReplicaTracker} (h : c.trackerOf n target = some (r, t)) :
    P.led r.snapshot.term n ∧ n ≠ target := by
  obtain ⟨hled, hne⟩ := hA.replicators n r (trackerOf_some h).1
  exact ⟨hled, fun heq => hne (heq ▸ target_mem h)⟩

theorem Addressed.named (hA : Addressed P c) {term : Int} {leader : RaftServer}
    (h : c.Named n term leader) : P.led term leader := by
  rcases h with ⟨req, hm, rfl, rfl⟩ | ⟨req, hm, rfl, rfl⟩
  · exact (hA.heartbeats _ hm).1
  · exact (hA.requests _ hm).1

namespace Advance

theorem worded (h : Advance P members first base c c' n node made) (hA : Addressed P c) :
    ∀ i p e, made i p e → e.request ≠ [] := by
  cases h.minting with
  | nothing => exact hA.worded
  | entry _ _ _ _ _ hne =>
    rintro i p e (he | ⟨rfl, rfl, rfl⟩)
    · exact hA.worded i p e he
    · exact hne

/-- A node that recognizes a leader recognizes one that led its term. -/
theorem heeded_node (h : Advance P members first base c c' n node made) (hA : Addressed P c)
    (hne : node.state.leader.empty = false) :
    P.led node.state.term node.state.leader ∨
      node.state.status = .LEADER ∧ node.state.leader = n := by
  have hold := hA.heeded n
  have hself := h.elections.steady.myself n
  rw [h.self] at hself
  cases h.turn with
  | calm hc =>
    rcases hc with hq | ⟨req, -, hg⟩
    · rcases hq.heeds with he | ⟨hterm, hleader⟩ | hnamed
      · rw [he] at hne
        cases hne
      · rw [hleader] at hne
        rw [hterm, hleader]
        exact .inl (hold hne)
      · exact .inl (hA.named hnamed)
    · rw [hg.leaderless] at hne
      cases hne
  | candidacy hc =>
    rw [hc.leaderless] at hne
    cases hne
  | ascent _ _ _ has =>
    exact .inr ⟨has.status, (has.sound.leader_self has.status).trans hself⟩
  | append _ _ _ _ hn =>
    rw [hn] at hne ⊢
    exact .inl (hold hne)
  | receive hm _ ht hl _ hn =>
    rw [hn]
    show P.led _ _ ∨ _
    rw [ht, hl]
    exact .inl (hA.requests _ hm).1

theorem heeded (h : Advance P members first base c c' n node made) (hA : Addressed P c)
    (m : RaftServer) (hne : (c'.node m).state.leader.empty = false) :
    (P.next made first.term c').led (c'.node m).state.term (c'.node m).state.leader := by
  by_cases hmn : m = n
  · subst hmn
    rw [h.self] at hne ⊢
    rcases h.heeded_node hA hne with hled | ⟨hl, hleader⟩
    · exact .inl hled
    · refine .inr ?_
      rw [hleader, h.self]
      exact ⟨hl, rfl⟩
  · rw [h.other hmn] at hne ⊢
    exact .inl (hA.heeded m hne)

theorem replicators (h : Advance P members first base c c' n node made) (hA : Addressed P c)
    {x : ClusterStep} (hm : Move c x c' n node) {v : RaftServer} {r : RaftReplicator}
    (hr : (c'.node v).replicator = some r) :
    P.led r.snapshot.term v ∧ v ∉ r.targets.map Prod.fst := by
  by_cases hvn : v = n
  · subst hvn
    rw [h.self] at hr
    rcases hm.replicator hr with ⟨r0, hr0, hsnap, htargets⟩ | ⟨hl, hsnap, hnew⟩
    · rw [hsnap, htargets]
      exact hA.replicators v r0 hr0
    · rw [hsnap]
      refine ⟨h.recalled.written.leading v hl, fun hv => ?_⟩
      obtain ⟨p, hp, rfl⟩ := List.mem_map.mp hv
      exact (hnew p hp).2 (h.recalled.elections.steady.myself p.1).symm
  · rw [h.other hvn] at hr
    exact hA.replicators v r hr

/-- What messages name stays what they name. -/
theorem addressed_next (h : Advance P members first base c c' n node made) (hA : Addressed P c)
    {x : ClusterStep} (hm : Move c x c' n node) (hb : Beats c c' n) :
    Addressed (P.next made first.term c') c' where
  worded := h.worded hA
  heeded := h.heeded hA
  replicators v r hr := (h.replicators hA hm hr).imp .inl id
  asked m hnew := by
    have hold := hA.asked m
    cases h.turn with
    | calm _ _ _ _ hr => exact hold (by rwa [hr] at hnew)
    | candidacy hc _ _ _ hr =>
      rcases hr m hnew with hnew | ⟨heq, hne⟩
      · exact hold hnew
      · rw [heq, hc.candidacy.candidate, h.recalled.elections.steady.myself]
        exact hne.symm
    | ascent _ _ _ _ _ _ _ hr => exact hold (by rwa [hr] at hnew)
    | append _ _ _ _ _ _ _ hr => exact hold (by rwa [hr] at hnew)
    | receive _ _ _ _ _ _ _ _ hr => exact hold (by rwa [hr] at hnew)
  requests m hnew := by
    have hrunning := h.recalled.elections.steady.running h.recalled.elections.named
    rcases hm.pushes hrunning hnew with hold | ⟨r, t, _, _, _, -, ht, hp⟩
    · exact (hA.requests m hold).imp .inl id
    · obtain ⟨hterm, hleader, -⟩ := RaftReplicaTracker.sendPayload_header hp
      rw [hterm, hleader, h.recalled.elections.steady.myself]
      exact (hA.tracker ht).imp .inl id
  heartbeats m hnew := by
    rcases hb m hnew with hold | ⟨r, t, ht, heq⟩
    · exact (hA.heartbeats m hold).imp .inl id
    · rw [heq]
      exact (hA.tracker ht).imp .inl id

end Advance

theorem addressed_created (journal : RaftJournal) :
    Addressed ⟨(created journal).Holds, fun _ _ => False, fun _ _ _ => False,
      fun _ _ _ _ => False, fun _ _ _ => False⟩ (created journal) where
  worded _ _ _ h := h.elim
  heeded n hne := by cases hne
  replicators n r hr := by cases hr
  asked m hm := by cases hm
  requests m hm := by cases hm
  heartbeats m hm := by cases hm

/-! ## Answers -/

/-- The leader that a message names is the one that its target recognizes in that term. -/
theorem Recalled.same_leader (hr : Recalled P members first base c) (hA : Addressed P c)
    {term : Int} {leader : RaftServer} (hled : P.led term leader)
    (ht : (c.node n).state.term = term) (hne : (c.node n).state.leader.empty = false) :
    (c.node n).state.leader = leader := by
  have hnode := hA.heeded n hne
  rw [ht] at hnode
  exact hr.written.led_unique hr.elections.polled hnode (hr.written.elected term leader hled)

/-- No request of a leader contradicts what the node that takes it has committed. -/
theorem Tracked.not_contradicts (hT : Tracked P members base c)
    (hr : Recalled P members first base c) {req : RaftAppendEntriesRequest}
    (hreq : (n, req) ∈ c.appendRequests)
    (hterm : ((c.node n).state.observed req.term req.leader).2.term = req.term) :
    ¬ RaftDispatcher.Contradicts ((c.node n).state.observed req.term req.leader).2.journal req := by
  rintro ⟨hm, k, hk, hlt, hle⟩
  have ho := hr.still_observed n req.term req.leader
  have hg := ho.quiet.calm.sound.journal_good
  have hlog := ho.quiet.calm.journal
  have hpath : OnPath P.made req := (hr.sent _ hreq).1
  obtain ⟨hp1, hp2, -⟩ := RaftDispatcher.matchEntries_true hg hm
  obtain ⟨k', hk', c1, c2, c3, -, c5⟩ := RaftDispatcher.compareEntries_spec hg req.entries hp1 hp2
  rw [hk] at hk'
  cases hk'
  have hcs := hg.commit_lt_size
  have hbase := hr.base_le n
  have hstart := hlog.start_le
  -- The node and the request have an entry at the index, and both lie below the leader.
  obtain ⟨e, he⟩ := Option.isSome_iff_exists.mp ((hg.stored k).mpr ⟨by omega, by omega⟩)
  obtain ⟨d, rfl⟩ : ∃ d : Nat, k = req.prevIndex + 1 + d :=
    ⟨(k - (req.prevIndex + 1)).toNat, by omega⟩
  obtain ⟨f, hf⟩ : ∃ f, req.entries[d]? = some f := ⟨_, List.getElem?_eq_getElem (by omega)⟩
  have hold := hlog.entries _ e he
  have hcommitted := hle
  rw [ho.commit_eq] at hcommitted
  obtain ⟨i, T, hT1, hchosen, hover⟩ := hT.decided hr (by omega) hcommitted hold
  have hlater := ho.quiet.calm.later.term
  have hchosen := hr.lawful.path_of_chosen hchosen (by omega) hpath.prev
  have hsame := (hchosen.below hover).unique hr.written.single hr.lawful.unbroken
    (hpath.entries d f hf)
  obtain ⟨p, hp, -⟩ := hr.written.logs n _ e (by omega) hold
  obtain ⟨q, hseg, -⟩ := (hr.written.requests _ hreq).drop d
  rw [List.drop_eq_getElem?_toList_append, hf] at hseg
  obtain ⟨-, rfl⟩ := hr.written.single _ p q e f hp hseg.1 hsame
  refine c5 (by omega) (by omega) ?_
  have hidx : (req.prevIndex + 1 + (d : Int) - (req.prevIndex + 1)).toNat = d := by omega
  rw [hidx, hf, he]

/-- A node answers the entries of a leader, if it has applied no more than it has committed. -/
theorem Tracked.appends_answered (hT : Tracked P members base c)
    (hr : Recalled P members first base c) (hA : Addressed P c) {req : RaftAppendEntriesRequest}
    (hreq : (n, req) ∈ c.appendRequests) {lastApplied : Int}
    (hla : lastApplied ≤ (c.node n).state.journal.commitIndex) :
    ∃ resp, ((RaftDispatcher.appendEntries lastApplied req).on (c.node n).state).1 = .ok resp := by
  obtain ⟨hled, hne⟩ := hA.requests _ hreq
  have ho := hr.still_observed n req.term req.leader
  have hfixed := (hr.elections.steady.fixed n).trims ho.quiet.calm.journal
  have hg := ho.quiet.calm.sound.journal_good
  have hstart := hg.start_le_commit
  have hbase := hfixed.base_le
  refine RaftDispatcher.appendEntries_returns (hr.tended n).up
    (by rw [hr.elections.steady.myself]; exact hne) (hr.same_leader hA hled) fun hterm => ?_
  refine RaftDispatcher.receiveEntries_returns hg (by rw [ho.commit_eq]; exact hla)
    (by rw [hfixed.epoch_eq]; omega) (fun e he => ⟨?_, ?_⟩) (hT.not_contradicts hr hreq hterm)
  · exact hr.elections.steady.requests _ hreq e he
  · obtain ⟨i, p, hmade⟩ := (hr.written.requests _ hreq).mem he
    exact hA.worded i p e hmade

section

variable {clusterID : RaftClusterID} {nodes : List RaftServer} {startIndex : Int}
  {journal : RaftJournal} {steps : List ClusterStep}

/-- In every run with fixed members, of which each has a name, in which no tracker sends after its
snapshot has changed and no write is appended under an old one: a node that takes a message
answers it. None of the checks that end a node fires: no candidate or leader hears from itself, no
term has two leaders, and no request would take back what is committed or applied. -/
theorem every_message_is_answered (h0 : 0 ≤ startIndex)
    (hnew : RaftJournal.obliterate clusterID nodes startIndex = .ok journal)
    (hnamed : ∀ s ∈ journal.members.nodes, s.empty = false)
    (hblocked : RaftServer.BLOCKED_VOTE ∉ journal.members.nodes)
    (hsteps : ∀ x ∈ steps, x.KeepsMembers) (htime : (created journal).sendsInTime steps)
    (hc : (created journal).runAll steps = some c) (n : RaftServer) :
    (∀ req, (n, req) ∈ c.voteRequests →
      ∃ resp, (RaftDispatcher.requestVote (c.node n).state req false).1 = .ok resp) ∧
    (∀ req, (n, req) ∈ c.heartbeats →
      ∃ resp, ((RaftDispatcher.heartbeat req).on (c.node n).state).1 = .ok resp) ∧
    ∀ req lastApplied, (n, req) ∈ c.appendRequests →
      lastApplied ≤ (c.node n).state.journal.commitIndex →
      ∃ resp, ((RaftDispatcher.appendEntries lastApplied req).on (c.node n).state).1 = .ok resp := by
  obtain ⟨first, hr⟩ := recalled_created h0 hnew hnamed hblocked
  obtain ⟨P, -, -, hr, hT, hA⟩ := hr.run
    (I := fun P c => Tracked P journal.members startIndex c ∧ Addressed P c)
    ⟨tracked_created hnew _, addressed_created journal⟩
    (fun hadv hm hb hx hI => ⟨hadv.tracked_next hI.1 hm hx, hadv.addressed_next hI.2 hm hb⟩)
    hsteps htime hc
  have hup := (hr.tended n).up
  have hme := hr.elections.steady.myself n
  refine ⟨fun req hm => ?_, fun req hm => ?_, fun req lastApplied hm hla => ?_⟩
  · exact RaftDispatcher.requestVote_returns hup (by rw [hme]; exact hA.asked _ hm)
  · obtain ⟨hled, hne⟩ := hA.heartbeats _ hm
    exact RaftDispatcher.heartbeat_returns hup (by rw [hme]; exact hne) (hr.same_leader hA hled)
  · exact hT.appends_answered hr hA hm hla

/-- The second node answers the marker of the first. -/
theorem the_marker_is_answered : ∃ new c c2 c3, MarkerRuns new c c2 c3 ∧
    ∃ req resp, (⟨ascii "s2", 7776⟩, req) ∈ c.appendRequests ∧
      ((RaftDispatcher.appendEntries 0 req).on (c.node ⟨ascii "s2", 7776⟩).state).1 =
        .ok resp := by
  obtain ⟨new, c, c2, c3, h, -, -, -, -, -, -, -, -, ⟨req, hm⟩, h1⟩ := markerRuns
  obtain ⟨resp, hresp⟩ := (every_message_is_answered (le_refl 0) h.created h.named h.unblocked
    (by simp [replicateMarker, ClusterStep.KeepsMembers]) h.in_time h.replicated _).2.2 req 0 hm
    (le_of_eq h1.symm)
  exact ⟨new, c, c2, c3, h, req, resp, hm, hresp⟩

end

end Cluster

end quarkdb
