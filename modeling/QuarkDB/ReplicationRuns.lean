-- What every run of a cluster with fixed members keeps of its replication: how far each
-- tracker knows the log of its target, what the commit tracker counts, and that what a node has
-- committed was chosen.
import QuarkDB.Probing

namespace quarkdb

open RaftJournal (Good)
open RaftState (Later)
open Chains (Made Over Path)
open Ballots (Chosen)

/-! ## Trackers -/

/-- The term of the last entry, as a tracker recalls it. -/
def RaftAppendEntriesRequest.lastTerm (req : RaftAppendEntriesRequest) : Int :=
  (req.entries.getLast?.map RaftEntry.term).getD (-1)

namespace RaftReplicaTracker

/-- What a round of the conservative loop sends. -/
theorem pushConservative_cases (t : RaftReplicaTracker) (s : RaftState) (snapshotTerm : Int)
    (request : Nat) {p : Pushed} (hp : p = t.pushConservative s snapshotTerm request) :
    p.sent = none ∧ 8 ≤ t.payloadLimit ∧
      p.tracker = { t with phase := .streamTop, streamingUpdates := true } ∨
    ∃ nextIndex, (nextIndex = t.nextIndex ∨ nextIndex = s.journal.logSize) ∧
      (p.sent = none ∧ p.tracker = { t with nextIndex, phase := .stopped } ∨
      ∃ req item, sendPayload s snapshotTerm nextIndex t.payloadLimit = some (req, req.lastTerm) ∧
        p.sent = some req ∧ item.request = request ∧ item.lastEntryTerm = req.lastTerm ∧
        p.tracker = { t with nextIndex, phase := .awaiting item }) := by
  subst hp
  unfold pushConservative
  split
  · rename_i hstable
    exact .inl ⟨rfl, (by simpa using hstable : _ ∧ _).2, rfl⟩
  right
  split
  · exact ⟨t.nextIndex, .inl rfl, .inl ⟨rfl, rfl⟩⟩
  dsimp only
  have hnext : (if t.nextIndex ≤ s.journal.logStart then s.journal.logSize else t.nextIndex) =
      t.nextIndex ∨
      (if t.nextIndex ≤ s.journal.logStart then s.journal.logSize else t.nextIndex) =
        s.journal.logSize := by
    split
    · exact .inr rfl
    · exact .inl rfl
  generalize (if t.nextIndex ≤ s.journal.logStart then s.journal.logSize else t.nextIndex) =
    nextIndex at hnext ⊢
  refine ⟨nextIndex, hnext, ?_⟩
  cases hsent : sendPayload s snapshotTerm nextIndex t.payloadLimit with
  | none => exact .inl ⟨rfl, rfl⟩
  | some sent =>
    obtain ⟨req, lastTerm⟩ := sent
    obtain rfl := (sendPayload_header hsent).2.2.2.2
    exact .inr ⟨req, _, rfl, rfl, rfl, rfl, rfl⟩

/-- What a round of the stream sends. -/
theorem pushStreaming_cases (t : RaftReplicaTracker) (s : RaftState) (snapshotTerm : Int)
    (request : Nat) {p : Pushed} (hp : p = t.pushStreaming s snapshotTerm request) :
    p.sent = none ∧ p.tracker = t.endStreaming ∨
    ∃ req item, sendPayload s snapshotTerm t.nextIndex 512 = some (req, req.lastTerm) ∧
      p.sent = some req ∧ item.request = request ∧ item.lastEntryTerm = req.lastTerm ∧
      p.tracker = { t with
        phase := .streamTop, inFlight := t.inFlight ++ [item],
        nextIndex := t.nextIndex + req.entries.length } := by
  subst hp
  unfold pushStreaming
  cases hsent : sendPayload s snapshotTerm t.nextIndex 512 with
  | none => exact .inl ⟨rfl, rfl⟩
  | some sent =>
    obtain ⟨req, lastTerm⟩ := sent
    obtain rfl := (sendPayload_header hsent).2.2.2.2
    exact .inr ⟨req, _, rfl, rfl, rfl, rfl, rfl⟩

end RaftReplicaTracker

theorem RaftReplicator.lookup_setTracker {r : RaftReplicator} {target m : RaftServer}
    {t t' : RaftReplicaTracker} (h : (r.setTracker target t').targets.lookup m = some t) :
    (m = target ∧ t = t') ∨ r.targets.lookup m = some t := by
  obtain ⟨snapshot, targets⟩ := r
  unfold setTracker at h
  dsimp only at h ⊢
  induction targets with
  | nil => cases h
  | cons p rest ih =>
    obtain ⟨s, u⟩ := p
    rw [List.map_cons, List.lookup_cons] at h
    rw [List.lookup_cons]
    by_cases hs : s = target
    · rw [if_pos hs] at h
      by_cases hm : m = s
      · rw [hm, beq_self_eq_true] at h
        cases h
        exact .inl ⟨hm.trans hs, rfl⟩
      · have hb : (m == s) = false := beq_eq_false_iff_ne.mpr hm
        rw [hb] at h ⊢
        exact ih h
    · rw [if_neg hs] at h
      cases hb : m == s with
      | true =>
        rw [hb] at h
        exact .inr h
      | false =>
        rw [hb] at h
        exact ih h

namespace RaftCommitTracker

/-- What a match index does to the commit index. -/
theorem updateMatchIndex_cases (t : RaftCommitTracker) (j : RaftJournal) (target : RaftServer)
    (index : Int) : ∃ t' commitIndex,
    t' = { t with
      registrations := fun s => if s = target then index else t.registrations s, commitIndex } ∧
    (t.updateMatchIndex j target index).1 = t' ∧
    ((t.updateMatchIndex j target index).2 = j ∨ ∃ quorum, t.targets ≠ [] ∧
      t'.quorumIndex = .ok quorum ∧
      (t.updateMatchIndex j target index).2 = ((RaftJournal.setCommitIndex quorum).on j).2) := by
  unfold updateMatchIndex updated
  split
  · exact ⟨_, t.commitIndex, rfl, rfl, .inl rfl⟩
  unfold recalculateCommitIndex
  split
  · exact ⟨_, t.commitIndex, rfl, rfl, .inl rfl⟩
  rename_i hne
  cases hq : quorumIndex { t with
      registrations := fun s => if s = target then index else t.registrations s } with
  | error e => exact ⟨_, t.commitIndex, rfl, rfl, .inl rfl⟩
  | ok quorum =>
    dsimp only
    unfold updateCommitIndex
    split
    · exact ⟨_, t.commitIndex, rfl, rfl, .inl rfl⟩
    · exact ⟨_, quorum, rfl, rfl, .inr ⟨quorum, hne, hq, rfl⟩⟩

theorem setCommitIndex_cases (j : RaftJournal) (index : Int) :
    ((RaftJournal.setCommitIndex index).on j).2.commitIndex = j.commitIndex ∨
      ((RaftJournal.setCommitIndex index).on j).2.commitIndex = index ∧ j.commitIndex < index := by
  rw [RaftJournal.setCommitIndex_on]
  split
  · exact .inl rfl
  split
  · exact .inl rfl
  split
  · rename_i hlt
    exact .inr ⟨rfl, hlt⟩
  · exact .inl rfl

end RaftCommitTracker

/-! ## What is tracked -/

namespace Cluster

/-- What a leader of the term may have committed: up to the index, all lies below something that
was chosen by then. -/
def Settled (nodes : List RaftServer) (base : Int) (P : Past) (T i : Int) : Prop :=
  i ≤ base ∨ ∃ m T', i ≤ m ∧ T' ≤ T ∧ Chosen RaftEntry.term nodes P.record m T'

/-- What the node has committed lies below something that was chosen by then. -/
def Committed (nodes : List RaftServer) (base : Int) (P : Past) (s : RaftState) : Prop :=
  s.journal.commitIndex ≤ base ∨ ∃ m T', s.journal.commitIndex ≤ m ∧ T' ≤ s.term ∧
    Chosen RaftEntry.term nodes P.record m T' ∧
    ∀ e, s.journal.db.entries s.journal.commitIndex = some e →
      Over RaftEntry.term P.made m T' s.journal.commitIndex e.term

/-- The request that a tracker waits for went to its target, in its term. -/
def Posted (c : Cluster) (target : RaftServer) (T : Int) (item : PendingResponse)
    (req : RaftAppendEntriesRequest) : Prop :=
  c.appendRequests[item.request]? = some (target, req) ∧ req.term = T ∧
    item.lastEntryTerm = req.lastTerm

/-- What the tracker of a node knows of its target. -/
structure Paced (P : Past) (c : Cluster) (n target : RaftServer) (T : Int)
    (t : RaftReplicaTracker) : Prop where
  limit : 1 ≤ t.payloadLimit
  tested : (c.node n).state.status = .LEADER → (c.node n).state.term = T →
    Tested P.made (c.node target).state T t.nextIndex
  caught : t.payloadLimit ≠ 1 ∨ t.phase = .streamTop ∨ t.phase = .streamReady →
    CaughtUp P.made (c.node target).state T
  awaiting : ∀ item, t.phase = .awaiting item → ∃ req, c.Posted target T item req ∧
    req.prevIndex + 1 = t.nextIndex
  flying : ∀ item ∈ t.inFlight, ∃ req, c.Posted target T item req

/-- What the answer of a node to a request says of its log. -/
def Answers (P : Past) (target : RaftServer) (s : RaftState) (req : RaftAppendEntriesRequest)
    (resp : RaftAppendEntriesResponse) : Prop :=
  req.term < resp.term ∨ resp.term = req.term ∧
    (resp.outcome = true → CaughtUp P.made s req.term ∧
      (req.lastTerm = req.term → P.held target req.term (resp.logSize - 1))) ∧
    (resp.outcome = false → Tested P.made s req.term resp.logSize ∧
      Tested P.made s req.term req.prevIndex)

/-- What the commit tracker of a node counts while it has a replicator. -/
structure Counts (P : Past) (nodes : List RaftServer) (n : RaftServer) (T : Int)
    (t : RaftCommitTracker) : Prop where
  member : n ∈ nodes
  led : P.led T n
  shape : t.updateTargets (nodes.filter fun s => s ≠ n) = t
  held : ∀ s, t.registrations s = 0 ∨ P.held s T (t.registrations s)

/-- What holds of the replication in every run that is remembered. -/
structure Tracked (P : Past) (members : RaftMembers) (base : Int) (c : Cluster) : Prop where
  committed : ∀ n, Committed members.nodes base P (c.node n).state
  requests : ∀ m ∈ c.appendRequests,
    Tested P.made (c.node m.1).state m.2.term (m.2.prevIndex + 1) ∧
    (m.2.entries = [] → Made RaftEntry.term P.made m.2.prevIndex m.2.term) ∧
    Settled members.nodes base P m.2.term m.2.commitIndex
  replies : ∀ m ∈ c.appendReplies, ∃ target req, c.appendRequests[m.1]? = some (target, req) ∧
    Answers P target (c.node target).state req m.2
  trackers : ∀ n target r t, c.trackerOf n target = some (r, t) →
    Paced P c n target r.snapshot.term t
  counts : ∀ n r, (c.node n).replicator = some r →
    Counts P members.nodes n r.snapshot.term (c.node n).commitTracker
  alone : ∀ n, (c.node n).commitTracker.autoCommitter = true → ∀ s ∈ members.nodes, s = n

variable {members : RaftMembers} {base : Int} {c c' : Cluster} {n : RaftServer} {node : RaftNode}
  {P : Past} {first : RaftEntry} {made : Int → Int → RaftEntry → Prop}

namespace Advance

/-! ### What a step does not change -/

theorem caughtUp (h : Advance P members first base c c' n node made) {v : RaftServer} {T : Int}
    (hc : CaughtUp P.made (c.node v).state T) : CaughtUp made (c'.node v).state T :=
  hc.rests (h.recalled.good v) h.subset (h.later v) (h.rests v)

theorem tested (h : Advance P members first base c c' n node made) {v : RaftServer} {T k : Int}
    (ht : Tested P.made (c.node v).state T k) : Tested made (c'.node v).state T k :=
  ht.rests (h.recalled.good v) h.subset (h.later v) (h.rests v)

theorem chosen (h : Advance P members first base c c' n node made) {m T : Int}
    (hc : Chosen RaftEntry.term members.nodes P.record m T) :
    Chosen RaftEntry.term members.nodes (P.next made first.term c').record m T :=
  hc.mono h.subset fun _ _ _ => .inl

theorem settled (h : Advance P members first base c c' n node made) {T i : Int}
    (hs : Settled members.nodes base P T i) :
    Settled members.nodes base (P.next made first.term c') T i := by
  rcases hs with hs | ⟨m, T', h1, h2, h3⟩
  · exact .inl hs
  · exact .inr ⟨m, T', h1, h2, h.chosen h3⟩

theorem answers (h : Advance P members first base c c' n node made) {target : RaftServer}
    {req : RaftAppendEntriesRequest} {resp : RaftAppendEntriesResponse}
    (ha : Answers P target (c.node target).state req resp) :
    Answers (P.next made first.term c') target (c'.node target).state req resp := by
  rcases ha with ha | ⟨h1, h2, h3⟩
  · exact .inl ha
  · refine .inr ⟨h1, fun ho => ?_, fun ho => ?_⟩
    · exact ⟨h.caughtUp (h2 ho).1, fun hl => .inl ((h2 ho).2 hl)⟩
    · exact ⟨h.tested (h3 ho).1, h.tested (h3 ho).2⟩

/-- Who has led a term leads it no more, or did before. -/
theorem led_before (h : Advance P members first base c c' n node made) {v : RaftServer} {T : Int}
    (hled : P.led T v) (hl : (c'.node v).state.status = .LEADER)
    (ht : (c'.node v).state.term = T) :
    (c.node v).state.status = .LEADER ∧ (c.node v).state.term = T := by
  by_cases hv : v = n
  · subst hv
    rw [h.self] at hl ht
    rcases h.turn.leader_before hl with ⟨h1, h2, -⟩ | hs
    · exact ⟨h1, h2.symm.trans ht⟩
    · have hnot := h.recalled.written.not_candidate (RaftState.later_self _) hs.was_candidate
      rw [hs.in_term, ht] at hnot
      exact absurd hled hnot
  · rw [h.other hv] at hl ht
    exact ⟨hl, ht⟩

theorem posted (hreq : c.appendRequests <+: c'.appendRequests)
    {target : RaftServer} {T : Int} {item : PendingResponse} {req : RaftAppendEntriesRequest}
    (hp : c.Posted target T item req) : c'.Posted target T item req := by
  obtain ⟨rest, hrest⟩ := hreq
  refine ⟨?_, hp.2⟩
  obtain ⟨hlt, -⟩ := List.getElem?_eq_some_iff.mp hp.1
  rw [← hrest, List.getElem?_append_left hlt]
  exact hp.1

theorem paced (h : Advance P members first base c c' n node made)
    (hreq : c.appendRequests <+: c'.appendRequests)
    {v target : RaftServer} {T : Int} {t : RaftReplicaTracker} (hled : P.led T v)
    (hp : Paced P c v target T t) : Paced (P.next made first.term c') c' v target T t := by
  refine ⟨hp.limit, fun hl ht => ?_, fun hc => h.caughtUp (hp.caught hc), fun item hi => ?_,
    fun item hi => ?_⟩
  · obtain ⟨h1, h2⟩ := h.led_before hled hl ht
    exact h.tested (hp.tested h1 h2)
  · obtain ⟨req, h1, h2⟩ := hp.awaiting item hi
    exact ⟨req, posted hreq h1, h2⟩
  · obtain ⟨req, h1⟩ := hp.flying item hi
    exact ⟨req, posted hreq h1⟩

theorem counts_mono {nodes : List RaftServer} {v : RaftServer} {T : Int} {t : RaftCommitTracker}
    (hc : Counts P nodes v T t) : Counts (P.next made first.term c') nodes v T t := by
  refine ⟨hc.member, .inl hc.led, hc.shape, fun s => ?_⟩
  rcases hc.held s with h | h
  · exact .inl h
  · exact .inr (.inl h)

/-- A node that commits nothing keeps what it has committed. -/
theorem committed_same (h : Advance P members first base c c' n node made) {v : RaftServer}
    (hc : Committed members.nodes base P (c.node v).state)
    (heq : (c'.node v).state.journal.commitIndex = (c.node v).state.journal.commitIndex) :
    Committed members.nodes base (P.next made first.term c') (c'.node v).state := by
  unfold Committed
  rw [heq]
  rcases hc with hc | ⟨m, T', h1, h2, h3, h4⟩
  · exact .inl hc
  · refine .inr ⟨m, T', h1, le_trans h2 (h.later v).term, h.chosen h3, fun e he => ?_⟩
    exact (h4 e ((h.rests v).committed _ e (le_refl _) he)).mono h.subset

end Advance

/-- A node that has what was chosen may commit up to there. -/
theorem committed_of_over (hr : Recalled P members first base c) {v : RaftServer} {m T : Int}
    (hc : Chosen RaftEntry.term members.nodes P.record m T) (hT : T ≤ (c.node v).state.term)
    (hle : (c.node v).state.journal.commitIndex ≤ m)
    (ho : Over RaftEntry.term P.made ((c.node v).state.journal.logSize - 1)
      (c.node v).state.journal.termOfLastEntry m T) :
    Committed members.nodes base P (c.node v).state := by
  refine .inr ⟨m, T, hle, hT, hc, fun e he => ?_⟩
  have hover := (hr.written.logs v).over_last (hr.good v) (hr.base_le v) he
  exact ho.linear hr.written.single hover hle

/-! ## What a tracker does -/

namespace Paced

variable {target : RaftServer} {T : Int} {t : RaftReplicaTracker}

/-- A tracker that is about to wait for nothing new. -/
theorem of_phase (h : Paced P c n target T t) {phase : TrackerPhase}
    (hw : ∀ item, phase ≠ .awaiting item)
    (hs : phase = .streamTop ∨ phase = .streamReady → t.payloadLimit ≠ 1 ∨
      t.phase = .streamTop ∨ t.phase = .streamReady) (streamingUpdates : Bool) :
    Paced P c n target T { t with phase, streamingUpdates } := by
  refine ⟨h.limit, h.tested, fun hc => h.caught ?_, fun item hi => absurd hi (hw item), h.flying⟩
  rcases hc with hc | hc
  · exact .inl hc
  · exact hs hc

theorem endStreaming (h : Paced P c n target T t) : Paced P c n target T t.endStreaming := by
  refine ⟨le_refl 1, h.tested, ?_, fun item hi => (by cases hi), fun item hi => (by cases hi)⟩
  rintro (hc | hc | hc)
  · exact absurd rfl hc
  · cases hc
  · cases hc

theorem checkSnapshot (h : Paced P c n target T t) (current : Bool) :
    Paced P c n target T (t.checkSnapshot current) := by
  unfold RaftReplicaTracker.checkSnapshot
  split
  · refine h.of_phase (fun item => ?_) ?_ t.streamingUpdates
    · split <;> simp
    · split <;> simp
  · rename_i hphase
    split
    · exact h.of_phase (by simp) (fun _ => .inr (.inl hphase)) t.streamingUpdates
    · exact h.endStreaming
  · exact h

theorem giveUp (h : Paced P c n target T t) {t' : RaftReplicaTracker} (hg : giveUp t = some t') :
    Paced P c n target T t' := by
  have hstream : Paced P c n target T
      { t with inFlight := t.inFlight.tail, streamingUpdates := false } :=
    ⟨h.limit, h.tested, h.caught, h.awaiting,
      fun item hi => h.flying item (List.mem_of_mem_tail hi)⟩
  unfold Cluster.giveUp at hg
  split at hg
  · cases hg
    refine ⟨?_, h.tested, ?_, fun item hi => (by cases hi), h.flying⟩
    · show 1 ≤ if t.online then 1 else t.payloadLimit
      split
      · exact le_refl 1
      · exact h.limit
    · rintro (hc | hc | hc)
      · refine h.caught (.inl fun hone => hc ?_)
        show (if t.online then 1 else t.payloadLimit) = 1
        rw [hone, ite_self]
      · cases hc
      · cases hc
  · cases hg
    exact hstream
  · cases hg
    exact hstream
  · cases hg

theorem pushConservative (h : Paced P c n target T t) {s : RaftState} {request : Nat}
    {p : RaftReplicaTracker.Pushed} (hp : p = t.pushConservative s T request)
    (hsize : (c.node n).state.status = .LEADER → (c.node n).state.term = T →
      Tested P.made (c.node target).state T s.journal.logSize)
    (hsent : ∀ req ∈ p.sent, c.appendRequests[request]? = some (target, req)) :
    Paced P c n target T p.tracker := by
  rcases t.pushConservative_cases s T request hp with ⟨-, hlimit, htracker⟩ |
    ⟨nextIndex, hnext, hcase⟩
  · rw [htracker]
    exact h.of_phase (by simp) (fun _ => .inl (by omega)) true
  have htested : (c.node n).state.status = .LEADER → (c.node n).state.term = T →
      Tested P.made (c.node target).state T nextIndex := by
    intro hl ht
    rcases hnext with rfl | rfl
    · exact h.tested hl ht
    · exact hsize hl ht
  rcases hcase with ⟨-, htracker⟩ | ⟨req, item, hpay, hreq, hnum, hlast, htracker⟩
  · rw [htracker]
    refine ⟨h.limit, htested, ?_, fun item hi => (by cases hi), h.flying⟩
    rintro (hc | hc | hc)
    · exact h.caught (.inl hc)
    · cases hc
    · cases hc
  · rw [htracker]
    refine ⟨h.limit, htested, ?_, ?_, h.flying⟩
    · rintro (hc | hc | hc)
      · exact h.caught (.inl hc)
      · cases hc
      · cases hc
    · rintro item' ⟨⟩
      have hprev := (RaftReplicaTracker.sendPayload_some hpay).1
      refine ⟨req, ⟨?_, (RaftReplicaTracker.sendPayload_header hpay).1, hlast⟩, ?_⟩
      · rw [hnum]
        exact hsent req hreq
      · show req.prevIndex + 1 = nextIndex
        omega

theorem pushStreaming (h : Paced P c n target T t) (hphase : t.phase = .streamReady)
    {s : RaftState} {request : Nat} {p : RaftReplicaTracker.Pushed}
    (hp : p = t.pushStreaming s T request)
    (hsent : ∀ req ∈ p.sent, c.appendRequests[request]? = some (target, req)) :
    Paced P c n target T p.tracker := by
  rcases t.pushStreaming_cases s T request hp with
    ⟨-, htracker⟩ | ⟨req, item, hpay, hreq, hnum, hlast, htracker⟩
  · rw [htracker]
    exact h.endStreaming
  · have hcaught := h.caught (.inr (.inr hphase))
    rw [htracker]
    refine ⟨h.limit, fun _ _ => .inr (.inl hcaught), fun _ => hcaught, fun item hi => (by cases hi),
      fun item' hi => ?_⟩
    rcases List.mem_append.mp hi with hi | hi
    · exact h.flying item' hi
    · obtain rfl := List.mem_singleton.mp hi
      refine ⟨req, ?_, (RaftReplicaTracker.sendPayload_header hpay).1, hlast⟩
      rw [hnum]
      exact hsent req hreq

/-- What a tracker hears moves it to where the target was tested. -/
theorem retrieve (h : Paced P c n target T t) {s : RaftState} {item : PendingResponse}
    (hphase : t.phase = .awaiting item) {resp : RaftAppendEntriesResponse}
    (hsize : (c.node n).state.status = .LEADER → (c.node n).state.term = T →
      Tested P.made (c.node target).state T (s.observed resp.term {}).2.journal.logSize)
    (hans : ∀ req, c.Posted target T item req → Answers P target (c.node target).state req resp) :
    Paced P c n target T (t.retrieve s T item resp).tracker ∧
      ∀ index, (t.retrieve s T item resp).matchIndex = some index → P.held target T index := by
  obtain ⟨req, hpost, hprev⟩ := h.awaiting item hphase
  have ha := hans req hpost
  obtain ⟨-, rfl, hlast⟩ := hpost
  unfold RaftReplicaTracker.retrieve
  dsimp only
  split
  · refine ⟨⟨h.limit, h.tested, ?_, fun item hi => (by cases hi), h.flying⟩,
      fun _ hi => (by cases hi)⟩
    rintro (hc | hc | hc)
    · exact h.caught (.inl hc)
    · cases hc
    · cases hc
  rename_i hterm
  obtain ⟨-, haccept, hrefuse⟩ := ha.resolve_left hterm
  split
  · refine ⟨⟨?_, hsize, ?_, fun item hi => (by cases hi), h.flying⟩, fun _ hi => (by cases hi)⟩
    · show 1 ≤ if t.needResilvering then t.payloadLimit else 1
      split
      · exact h.limit
      · exact le_refl 1
    · rintro (hc | hc | hc)
      · refine h.caught (.inl fun hone => hc ?_)
        show (if t.needResilvering then t.payloadLimit else 1) = 1
        rw [hone, ite_self]
      · cases hc
      · cases hc
  split
  · rename_i hout
    have hout : resp.outcome = false := by simpa using hout
    obtain ⟨h1, h2⟩ := hrefuse hout
    refine ⟨⟨h.limit, fun hl ht => ?_, ?_, fun item hi => (by cases hi), h.flying⟩,
      fun _ hi => (by cases hi)⟩
    · show Tested P.made _ _ (RaftReplicaTracker.stepBack t.nextIndex resp.logSize)
      unfold RaftReplicaTracker.stepBack
      split
      · rw [← hprev, Int.add_sub_cancel]
        exact h2
      split
      · exact h1
      · exact h.tested hl ht
    · rintro (hc | hc | hc)
      · exact h.caught (.inl hc)
      · cases hc
      · cases hc
  · rename_i hout
    have hout : resp.outcome = true := by simpa using hout
    obtain ⟨h1, h2⟩ := haccept hout
    refine ⟨⟨?_, fun _ _ => .inr (.inl h1), fun _ => h1, fun item hi => (by cases hi), h.flying⟩,
      fun index hi => ?_⟩
    · show 1 ≤ if t.payloadLimit < 1024 then t.payloadLimit * 2 else t.payloadLimit
      have hlimit := h.limit
      split <;> omega
    · dsimp only at hi
      split at hi
      · rename_i hl
        cases hi
        exact h2 (hlast.symm.trans hl)
      · cases hi

/-- What the stream hears of a request in flight. -/
theorem acknowledge (h : Paced P c n target T t) {s : RaftState} {item : PendingResponse}
    (hitem : item ∈ t.inFlight) {resp : RaftAppendEntriesResponse}
    (hans : ∀ req, c.Posted target T item req → Answers P target (c.node target).state req resp) :
    Paced P c n target T (t.acknowledge s T item resp).tracker ∧
      ∀ index, (t.acknowledge s T item resp).matchIndex = some index → P.held target T index := by
  obtain ⟨req, hpost⟩ := h.flying item hitem
  have ha := hans req hpost
  obtain ⟨-, rfl, hlast⟩ := hpost
  have hflying : ∀ item ∈ t.inFlight.tail, ∃ req', c.Posted target req.term item req' :=
    fun item hi => h.flying item (List.mem_of_mem_tail hi)
  unfold RaftReplicaTracker.acknowledge
  dsimp only
  split
  · exact ⟨⟨h.limit, h.tested, h.caught, h.awaiting, hflying⟩, fun _ hi => (by cases hi)⟩
  · rename_i hout
    rw [not_or, not_or] at hout
    obtain ⟨h1, h2, -⟩ := hout
    have h1 : resp.outcome = true := by simpa using h1
    have h2 : resp.term = req.term := not_not.mp h2
    refine ⟨⟨h.limit, h.tested, h.caught, h.awaiting, hflying⟩, fun index hi => ?_⟩
    dsimp only at hi
    split at hi
    · rename_i hl
      cases hi
      obtain ⟨-, haccept, -⟩ := ha.resolve_left (by omega)
      exact (haccept h1).2 (hlast.symm.trans hl)
    · cases hi

end Paced

/-! ## What becomes committed -/

/-- The log of a node that held what was chosen has it. -/
theorem Recalled.over_of_chosen (hr : Recalled P members first base c) {v : RaftServer}
    {m T k : Int} (hc : Chosen RaftEntry.term members.nodes P.record m T) (hk : P.held v T k)
    (hmk : m ≤ k) : Over RaftEntry.term P.made ((c.node v).state.journal.logSize - 1)
      (c.node v).state.journal.termOfLastEntry m T :=
  hr.keeps v T k m hk hmk (hr.held_made v T k hk).2 hc.1 (hr.lawful.complete hc _)

theorem Recalled.term_of_held (hr : Recalled P members first base c) {v : RaftServer} {T k : Int}
    (hk : P.held v T k) : T ≤ (c.node v).state.term :=
  le_trans (hr.held_made v T k hk).2 (c.node v).state.reached_bounds.2

/-- The leader of a term held all that was made in it, and is one of the members. -/
theorem Recalled.held_by_leader (hr : Recalled P members first base c) {m T : Int}
    (hm : Made RaftEntry.term P.made m T) : ∃ a k, a ∈ members.nodes ∧ P.led T a ∧ m ≤ k ∧
      P.held a T k := by
  obtain ⟨p, e, he, rfl⟩ := hm
  obtain ⟨a, k, hled, hk, hheld⟩ := hr.made_held m p e he
  obtain ⟨b, ci, cu, f, hwon, hstood, -⟩ := hr.lawful.won m p e he
  obtain rfl := hr.written.led_unique hr.elections.polled hled hwon
  exact ⟨a, k, (hr.stood_before a _ ci cu hstood).1, hled, hk, hheld⟩

/-- What a commit tracker counts to a quorum was chosen. -/
theorem Counts.chosen {T : Int} {t : RaftCommitTracker} (h : Counts P members.nodes n T t)
    (hr : Recalled P members first base c) (hne : t.targets ≠ []) {index : Int}
    (hq : t.quorumIndex = .ok index) (hpos : 0 < index) :
    Chosen RaftEntry.term members.nodes P.record index T ∧ ∃ k, index ≤ k ∧ P.held n T k := by
  have htargets : t.targets = members.nodes.filter fun s => s ≠ n := by
    rw [← h.shape]
    rfl
  have hquorum : t.quorumSize = calculateQuorumSize (t.targets.length + 1) := by
    rw [← h.shape]
    rfl
  -- The index is that of one of the targets, which held it.
  obtain ⟨s, hs, hreg⟩ : ∃ s ∈ t.targets, t.registrations s = index := by
    unfold RaftCommitTracker.quorumIndex at hq
    dsimp only at hq
    split at hq
    · rename_i index' hget
      cases hq
      have hmem := List.mem_of_getElem? hget
      rw [List.mem_insertionSort] at hmem
      exact List.mem_map.mp hmem
    · cases hq
  have hheld := (h.held s).resolve_left (by omega)
  rw [hreg] at hheld
  have hmade := (hr.held_made s T index hheld).1
  obtain ⟨a, k, -, hled, hk, hown⟩ := hr.held_by_leader hmade
  have han := hr.written.led_unique hr.elections.polled hled (hr.written.elected T n h.led)
  rw [han] at hown
  refine ⟨⟨hmade, n :: t.targets.filter fun s => index ≤ t.registrations s, ?_, ?_, ?_, ?_⟩,
    k, hk, hown⟩
  · refine List.nodup_cons.mpr ⟨fun hn => ?_, ?_⟩
    · have hn := (List.mem_filter.mp hn).1
      rw [htargets] at hn
      simpa using (List.mem_filter.mp hn).2
    · rw [htargets]
      exact (hr.elections.nodup.filter _).filter _
  · intro v hv
    rcases List.mem_cons.mp hv with rfl | hv
    · exact h.member
    · have hv := (List.mem_filter.mp hv).1
      rw [htargets] at hv
      exact (List.mem_filter.mp hv).1
  · -- A quorum of the targets reached the index, and the leader is one more.
    have htargets_ne : (members.nodes.filter fun s => s ≠ n) ≠ [] := by
      rw [← htargets]
      exact hne
    obtain ⟨index', hq', hgreatest⟩ := quorumIndex_isGreatest t htargets_ne
    rw [h.shape, hq] at hq'
    cases hq'
    have hreach := hgreatest.1
    rw [h.shape, ← htargets] at hreach
    have hreach : t.quorumSize - 1 ≤
        Ranking.reaching (t.targets.map t.registrations) index := hreach
    rw [hquorum] at hreach
    have hmaj := majority_of_quorum hreach
    have hcount := count_add_length_others members.nodes n
    have hone := List.nodup_iff_count_le_one.mp hr.elections.nodup n
    unfold Ranking.reaching at hmaj
    rw [List.countP_map, List.countP_eq_length_filter] at hmaj
    rw [← htargets] at hcount
    rw [List.length_cons]
    have hsame : (t.targets.filter ((fun x => decide (index ≤ x)) ∘ t.registrations)).length =
        (t.targets.filter fun s => index ≤ t.registrations s).length := rfl
    omega
  · intro v hv
    rcases List.mem_cons.mp hv with rfl | hv
    · exact ⟨k, hk, hown⟩
    · have hle := (List.mem_filter.mp hv).2
      have hle : index ≤ t.registrations v := by simpa using hle
      exact ⟨_, hle, (h.held v).resolve_left (by omega)⟩

/-! ## Steps -/

theorem Move.requests_prefix {x : ClusterStep} (hm : Move c x c' n node) :
    c.appendRequests <+: c'.appendRequests := by
  cases hm with
  | still _ _ ha => rw [ha]
  | activate _ _ ha => rw [ha]
  | idle _ _ _ ha => rw [ha]
  | push _ _ _ _ ha =>
    rw [ha]
    exact List.prefix_append _ _
  | hear _ _ _ _ ha => rw [ha]
  | append _ _ ha => rw [ha]
  | autoCommit _ _ ha => rw [ha]

theorem trackerOf_eq {target : RaftServer} {r : RaftReplicator} {t : RaftReplicaTracker}
    (hr : (c.node n).replicator = some r) (ht : r.targets.lookup target = some t) :
    c.trackerOf n target = some (r, t) := by
  unfold trackerOf
  rw [hr]
  show (r.targets.lookup target).map _ = _
  rw [ht]
  rfl

theorem hear_cases (n : RaftNode) (r : RaftReplicator) (target : RaftServer)
    (heard : RaftReplicaTracker.Heard) : ∃ t journal,
      n.hear r target heard = { n with
        state := { heard.state with journal }, commitTracker := t,
        replicator := some (r.setTracker target heard.tracker) } ∧
      (heard.matchIndex = none ∧ t = n.commitTracker ∧ journal = heard.state.journal ∨
      ∃ index, heard.matchIndex = some index ∧
        (t, journal) = n.commitTracker.updateMatchIndex heard.state.journal target index) := by
  unfold RaftNode.hear
  cases heard.matchIndex with
  | none => exact ⟨_, _, rfl, .inl ⟨rfl, rfl, rfl⟩⟩
  | some index => exact ⟨_, _, rfl, .inr ⟨index, rfl, rfl⟩⟩

namespace Advance

/-- What a tracker hears is so. -/
theorem hears (h : Advance P members first base c c' n node made) (hT : Tracked P members base c)
    {target : RaftServer} {r : RaftReplicator} {t : RaftReplicaTracker} {request : Nat}
    {resp : RaftAppendEntriesResponse} {heard : RaftReplicaTracker.Heard}
    (ht : c.trackerOf n target = some (r, t)) (hreply : (request, resp) ∈ c.appendReplies)
    (hh : Hears c n r t request resp heard) (ha : c'.appendRequests = c.appendRequests) :
    Paced (P.next made first.term c') c' n target r.snapshot.term heard.tracker ∧
      ∀ index, heard.matchIndex = some index →
        (P.next made first.term c').held target r.snapshot.term index := by
  obtain ⟨target', req', hreq', hans⟩ := hT.replies _ hreply
  have hled := (hT.counts n r (trackerOf_some ht).1).led
  have hpaced := h.paced (by rw [ha]) hled (hT.trackers n target r t ht)
  have hanswers : ∀ item : PendingResponse, item.request = request → ∀ req,
      c'.Posted target r.snapshot.term item req →
      Answers (P.next made first.term c') target (c'.node target).state req resp := by
    rintro item rfl req ⟨hp, -⟩
    rw [ha, hreq'] at hp
    cases hp
    exact h.answers hans
  have hsize : (c'.node n).state.status = .LEADER → (c'.node n).state.term = r.snapshot.term →
      Tested made (c'.node target).state r.snapshot.term
        ((c.node n).state.observed resp.term {}).2.journal.logSize := by
    intro hl hterm
    obtain ⟨hl, hterm⟩ := h.led_before hled hl hterm
    have hmade := h.recalled.leader_made hl
    rw [hterm] at hmade
    rw [(RaftDispatcher.observed_journal (h.recalled.good n) resp.term {}).2.2.1]
    exact .inl (hmade.mono h.subset)
  rcases hh with ⟨item, hphase, hnum, rfl⟩ | ⟨item, hitem, hnum, rfl⟩
  · exact hpaced.retrieve hphase hsize (hanswers item hnum)
  · exact hpaced.acknowledge hitem (hanswers item hnum)

theorem counts (h : Advance P members first base c c' n node made)
    (hT : Tracked P members base c) {x : ClusterStep} (hm : Move c x c' n node) {v : RaftServer}
    {r : RaftReplicator} (hr : (c'.node v).replicator = some r) :
    Counts (P.next made first.term c') members.nodes v r.snapshot.term
      (c'.node v).commitTracker := by
  by_cases hv : v = n
  swap
  · rw [h.other hv] at hr ⊢
    exact counts_mono (hT.counts v r hr)
  subst hv
  have hself := h.self
  rw [hself] at hr ⊢
  have hold := hT.counts v
  cases hmove : hm with
  | still _ hsame =>
    rcases hsame with ⟨h1, h2⟩ | ⟨hnone, -⟩
    · rw [h2]
      exact counts_mono (hold r (h1.symm.trans hr))
    · rw [hnone] at hr
      cases hr
  | activate hl hact =>
    obtain ⟨hstate, htracker, r', hr', hsnap, -⟩ := activate_frame hact
    rw [hr] at hr'
    cases hr'
    have hfixed := h.recalled.elections.steady.fixed v
    rw [hfixed.members_eq, h.recalled.elections.steady.myself] at htracker
    refine ⟨h.recalled.elections.steady.active v (by rw [hl]; decide), .inr ?_, ?_,
      fun s => .inl ?_⟩
    · rw [hself, hstate, hsnap]
      exact ⟨hl, rfl⟩
    · rw [htracker]
      rfl
    · rw [htracker]
      rfl
  | @idle _ r0 _ _ ht _ hn =>
    rw [hn] at hr ⊢
    cases hr
    exact counts_mono (hold r0 (trackerOf_some ht).1)
  | @push _ r0 _ _ _ ht _ hn =>
    rw [hn] at hr ⊢
    cases hr
    exact counts_mono (hold r0 (trackerOf_some ht).1)
  | @hear target r0 t _ _ heard ht hreply hh hn ha =>
    have hheld := (h.hears hT ht hreply hh ha).2
    have hcounts := hold _ (trackerOf_some ht).1
    obtain ⟨t1, journal, hnode, hcase⟩ := hear_cases (c.node v) r0 target heard
    rw [hn, hnode] at hr ⊢
    cases hr
    rcases hcase with ⟨-, rfl, -⟩ | ⟨index, hindex, hupdate⟩
    · exact counts_mono hcounts
    · obtain ⟨t2, commitIndex, rfl, htracker, -⟩ :=
        RaftCommitTracker.updateMatchIndex_cases (c.node v).commitTracker heard.state.journal
          target index
      have ht1 : t1 = _ := (congrArg Prod.fst hupdate).trans htracker
      have hmono : Counts (P.next made first.term c') _ _ _ _ := counts_mono hcounts
      rw [ht1]
      refine ⟨hmono.member, hmono.led, ?_, fun s => ?_⟩
      · have hshape := hmono.shape
        exact congrArg (fun t : RaftCommitTracker => { t with
          registrations := fun s =>
            if s = target then index else (c.node v).commitTracker.registrations s,
          commitIndex }) hshape
      · dsimp only
        split
        · rename_i hs
          rw [hs]
          exact .inr (hheld index hindex)
        · exact hmono.held s
  | append _ hn =>
    rw [hn] at hr ⊢
    exact counts_mono (hold r hr)
  | autoCommit _ hn =>
    rw [hn] at hr ⊢
    exact counts_mono (hold r hr)

theorem alone (h : Advance P members first base c c' n node made)
    (hT : Tracked P members base c) {x : ClusterStep} (hm : Move c x c' n node) {v : RaftServer}
    (hauto : (c'.node v).commitTracker.autoCommitter = true) : ∀ s ∈ members.nodes, s = v := by
  by_cases hv : v = n
  swap
  · rw [h.other hv] at hauto
    exact hT.alone v hauto
  subst hv
  rw [h.self] at hauto
  have hold := hT.alone v
  have hupdate : ∀ (t : RaftCommitTracker) (trgt : List RaftServer),
      (t.updateTargets trgt).autoCommitter = true → trgt = [] := by
    intro t trgt hu
    have hq : calculateQuorumSize (trgt.length + 1) = 1 := of_decide_eq_true hu
    unfold calculateQuorumSize at hq
    exact List.eq_nil_of_length_eq_zero (by omega)
  have hmembers := (h.elections.steady.fixed v).members_eq
  rw [h.self] at hmembers
  cases hm with
  | still _ hsame =>
    rcases hsame with ⟨-, h2⟩ | ⟨-, h2 | h2⟩
    · rw [h2] at hauto
      exact hold hauto
    · rw [h2] at hauto
      exact hold hauto
    · rw [h2] at hauto
      have hnil := hupdate _ _ hauto
      rw [hmembers] at hnil
      rw [hnil]
      exact fun s hs => by cases hs
  | activate hl hact =>
    obtain ⟨-, htracker, -⟩ := activate_frame hact
    rw [htracker] at hauto
    have hnil := hupdate _ _ hauto
    rw [(h.recalled.elections.steady.fixed v).members_eq,
      h.recalled.elections.steady.myself] at hnil
    intro s hs
    by_contra hne
    have hmem : s ∈ members.nodes.filter fun s => s ≠ v := by simp [hs, hne]
    rw [hnil] at hmem
    cases hmem
  | idle _ _ hn =>
    rw [hn] at hauto
    exact hold hauto
  | push _ _ _ hn =>
    rw [hn] at hauto
    exact hold hauto
  | @hear target r0 t _ _ heard ht hreply hh hn ha =>
    obtain ⟨t1, journal, hnode, hcase⟩ := hear_cases (c.node v) r0 target heard
    rw [hn, hnode] at hauto
    rcases hcase with ⟨-, rfl, -⟩ | ⟨index, -, hupd⟩
    · exact hold hauto
    · obtain ⟨t2, commitIndex, rfl, htracker, -⟩ :=
        RaftCommitTracker.updateMatchIndex_cases (c.node v).commitTracker heard.state.journal
          target index
      have ht1 : t1 = _ := (congrArg Prod.fst hupd).trans htracker
      rw [ht1] at hauto
      exact hold hauto
  | append _ hn =>
    rw [hn] at hauto
    exact hold hauto
  | autoCommit _ hn =>
    rw [hn] at hauto
    exact hold hauto

end Advance

/-! ### Requests that come in -/

section

variable {req : RaftAppendEntriesRequest} {lastApplied : Int} {err : Bytes} {j' : RaftJournal}

theorem Recalled.still_observed (hr : Recalled P members first base c) (n : RaftServer) (term : Int)
    (leader : RaftServer) : Still (fun t l => t = term ∧ l = leader) (c.node n).state
      ((c.node n).state.observed term leader).2 :=
  have hrunning := hr.elections.steady.running hr.elections.named
  RaftState.still_observed (hrunning.sound n) (hrunning.named n) term leader (.inr ⟨rfl, rfl⟩)

theorem Tracked.tested_observed (hT : Tracked P members base c)
    (hr : Recalled P members first base c) (hm : (n, req) ∈ c.appendRequests) :
    Tested P.made ((c.node n).state.observed req.term req.leader).2 req.term
      (req.prevIndex + 1) := by
  have ho := (hr.still_observed n req.term req.leader).quiet.calm
  exact (hT.requests _ hm).1.rests (hr.good n) (fun _ _ _ => id) ho.later
    (rests_of_trims ho.journal)

/-- A node that accepts a request ends up below its sender. -/
theorem Tracked.path_of_accepted (hT : Tracked P members base c)
    (hr : Recalled P members first base c) (hm : (n, req) ∈ c.appendRequests)
    (ht : ((c.node n).state.observed req.term req.leader).2.term = req.term)
    (hres : (RaftDispatcher.receiveEntries lastApplied req).on
      ((c.node n).state.observed req.term req.leader).2.journal = (.ok (true, err), j')) :
    Path RaftEntry.term P.made req.term (j'.logSize - 1) j'.termOfLastEntry := by
  have ho := (hr.still_observed n req.term req.leader).quiet.calm
  exact quarkdb.path_of_accepted hr.written.single hr.lawful.unbroken hr.lawful.grounded
    ((hr.written.logs n).of_subset ho.journal.entries) ho.sound
    (le_trans (hr.base_le n) ho.journal.start_le) ht (hr.sent _ hm).1 (hr.written.requests _ hm)
    (hT.tested_observed hr hm) (hT.requests _ hm).2.1 hres

/-- A node that does not accept a request of its leader tells where it differs. -/
theorem Recalled.tested_of_refused (hr : Recalled P members first base c)
    (hm : (n, req) ∈ c.appendRequests)
    (ht : ((c.node n).state.observed req.term req.leader).2.term = req.term)
    (hres : (RaftDispatcher.receiveEntries lastApplied req).on
      ((c.node n).state.observed req.term req.leader).2.journal = (.ok (false, err), j')) :
    Tested P.made { ((c.node n).state.observed req.term req.leader).2 with journal := j' }
        req.term j'.logSize ∧
      Tested P.made { ((c.node n).state.observed req.term req.leader).2 with journal := j' }
        req.term req.prevIndex := by
  have ho := (hr.still_observed n req.term req.leader).quiet.calm
  exact quarkdb.tested_of_refused hr.written.single hr.lawful.unbroken
    ((hr.written.logs n).of_subset ho.journal.entries) ho.sound
    (le_trans (hr.base_le n) ho.journal.start_le) ht (hr.sent _ hm).1
    (hr.written.requests _ hm) hres

end

/-- What a leader sends was tested, and says of the commit index what was chosen. -/
theorem Tracked.sent (hT : Tracked P members base c) (hr : Recalled P members first base c)
    (hl : (c.node n).state.status = .LEADER) {target : RaftServer} {T : Int}
    (hterm : (c.node n).state.term = T) {nextIndex payloadLimit lastTerm : Int}
    {req : RaftAppendEntriesRequest} (hlimit : 1 ≤ payloadLimit)
    (htested : Tested P.made (c.node target).state T nextIndex)
    (hp : RaftReplicaTracker.sendPayload (c.node n).state T nextIndex payloadLimit =
      some (req, lastTerm)) :
    Tested P.made (c.node target).state req.term (req.prevIndex + 1) ∧
      (req.entries = [] → Made RaftEntry.term P.made req.prevIndex req.term) ∧
      Settled members.nodes base P req.term req.commitIndex := by
  obtain ⟨hprev, ⟨previous, hprevious, -⟩, -⟩ := RaftReplicaTracker.sendPayload_some hp
  obtain ⟨hreqterm, -, hcommit, hlen, -⟩ := RaftReplicaTracker.sendPayload_header hp
  have hstored := ((hr.good n).stored (nextIndex - 1)).mp (by rw [hprevious]; rfl)
  refine ⟨?_, fun hnil => ?_, ?_⟩
  · rw [hreqterm, hprev, Int.sub_add_cancel]
    exact htested
  · -- Nothing is left to send: the entry before is the last one of the leader.
    rw [hnil, List.length_nil] at hlen
    have hend : req.prevIndex = (c.node n).state.journal.logSize - 1 := by omega
    rw [hend, hreqterm, ← hterm]
    exact hr.leader_made hl
  · rw [hreqterm, hcommit, ← hterm]
    rcases hT.committed n with h | ⟨m, T', h1, h2, h3, -⟩
    · exact .inl h
    · exact .inr ⟨m, T', h1, h2, h3⟩

namespace Advance

/-- What a push sends, and where it leaves the tracker. -/
theorem pushes (h : Advance P members first base c c' n node made) (hT : Tracked P members base c)
    {x : ClusterStep} (hx : c.sendsCurrent x) {target : RaftServer} {r : RaftReplicator}
    {t : RaftReplicaTracker} {p : RaftReplicaTracker.Pushed} (heq : x = .sendPayload n target)
    (ht : c.trackerOf n target = some (r, t)) (hpush : Pushes c n r t p)
    (ha : c'.appendRequests = c.appendRequests ++ p.sent.toList.map fun req => (target, req)) :
    Paced (P.next made first.term c') c' n target r.snapshot.term p.tracker ∧
      ∀ req ∈ p.sent, Tested P.made (c.node target).state req.term (req.prevIndex + 1) ∧
        (req.entries = [] → Made RaftEntry.term P.made req.prevIndex req.term) ∧
        Settled members.nodes base P req.term req.commitIndex := by
  subst heq
  obtain ⟨hr, -⟩ := trackerOf_some ht
  obtain ⟨hl, hterm⟩ := h.recalled.leads_of_current hr (isCurrent_of_sends hx ht)
  have hled := (hT.counts n r hr).led
  have hold := hT.trackers n target r t ht
  have hpaced := h.paced (by rw [ha]; exact List.prefix_append _ _) hled hold
  have hmade := h.recalled.leader_made hl
  rw [← hterm] at hmade
  have hsent : ∀ req ∈ p.sent,
      c'.appendRequests[c.appendRequests.length]? = some (target, req) := by
    intro req hreq
    rw [ha, List.getElem?_append_right (le_refl _), Nat.sub_self, Option.mem_def.mp hreq]
    rfl
  rcases hpush with ⟨-, hp⟩ | ⟨hphase, hp⟩
  · refine ⟨hpaced.pushConservative hp (fun _ _ => .inl (hmade.mono h.subset)) hsent,
      fun req hreq => ?_⟩
    rcases t.pushConservative_cases _ _ _ hp with ⟨hnone, -⟩ |
      ⟨nextIndex, hnext, ⟨hnone, -⟩ | ⟨req', item, hpay, hreq', -⟩⟩
    · rw [hnone] at hreq
      cases hreq
    · rw [hnone] at hreq
      cases hreq
    · rw [hreq'] at hreq
      cases hreq
      refine hT.sent h.recalled hl hterm.symm hold.limit ?_ hpay
      rcases hnext with rfl | rfl
      · exact hold.tested hl hterm.symm
      · exact .inl hmade
  · refine ⟨hpaced.pushStreaming hphase hp hsent, fun req hreq => ?_⟩
    rcases t.pushStreaming_cases _ _ _ hp with ⟨hnone, -⟩ | ⟨req', item, hpay, hreq', -⟩
    · rw [hnone] at hreq
      cases hreq
    · rw [hreq'] at hreq
      cases hreq
      exact hT.sent h.recalled hl hterm.symm (by decide)
        (.inr (.inl (hold.caught (.inr (.inr hphase))))) hpay

theorem requests (h : Advance P members first base c c' n node made)
    (hT : Tracked P members base c) {x : ClusterStep} (hm : Move c x c' n node)
    (hx : c.sendsCurrent x) : ∀ m ∈ c'.appendRequests,
      Tested made (c'.node m.1).state m.2.term (m.2.prevIndex + 1) ∧
      (m.2.entries = [] → Made RaftEntry.term made m.2.prevIndex m.2.term) ∧
      Settled members.nodes base (P.next made first.term c') m.2.term m.2.commitIndex := by
  intro m hnew
  have hnext : Tested P.made (c.node m.1).state m.2.term (m.2.prevIndex + 1) ∧
      (m.2.entries = [] → Made RaftEntry.term P.made m.2.prevIndex m.2.term) ∧
      Settled members.nodes base P m.2.term m.2.commitIndex →
      Tested made (c'.node m.1).state m.2.term (m.2.prevIndex + 1) ∧
      (m.2.entries = [] → Made RaftEntry.term made m.2.prevIndex m.2.term) ∧
      Settled members.nodes base (P.next made first.term c') m.2.term m.2.commitIndex :=
    fun ⟨h1, h2, h3⟩ => ⟨h.tested h1, fun hnil => (h2 hnil).mono h.subset, h.settled h3⟩
  have hold : m ∈ c.appendRequests → _ := fun hm => hnext (hT.requests m hm)
  cases hm with
  | still _ _ ha => exact hold (by rwa [ha] at hnew)
  | activate _ _ ha => exact hold (by rwa [ha] at hnew)
  | idle _ _ _ ha => exact hold (by rwa [ha] at hnew)
  | push heq ht hpush _ ha =>
    have hpushes := (h.pushes hT hx heq ht hpush ha).2
    rw [ha] at hnew
    rcases List.mem_append.mp hnew with hm | hm
    · exact hold hm
    · obtain ⟨req, hreq, rfl⟩ := List.mem_map.mp hm
      exact hnext (hpushes req (by simpa using hreq))
  | hear _ _ _ _ ha => exact hold (by rwa [ha] at hnew)
  | append _ _ ha => exact hold (by rwa [ha] at hnew)
  | autoCommit _ _ ha => exact hold (by rwa [ha] at hnew)

theorem trackers (h : Advance P members first base c c' n node made)
    (hT : Tracked P members base c) {x : ClusterStep} (hm : Move c x c' n node)
    (hx : c.sendsCurrent x) {v target : RaftServer} {r : RaftReplicator} {t : RaftReplicaTracker}
    (ht : c'.trackerOf v target = some (r, t)) :
    Paced (P.next made first.term c') c' v target r.snapshot.term t := by
  have hold : ∀ {v target r t}, c.trackerOf v target = some (r, t) →
      Paced (P.next made first.term c') c' v target r.snapshot.term t := fun {v target r t} ht =>
    h.paced hm.requests_prefix (hT.counts v r (trackerOf_some ht).1).led
      (hT.trackers v target r t ht)
  obtain ⟨hr, hlook⟩ := trackerOf_some ht
  by_cases hv : v = n
  swap
  · rw [h.other hv] at hr
    exact hold (trackerOf_eq hr hlook)
  subst hv
  rw [h.self] at hr
  -- One tracker is set, and the others stay.
  have hset : ∀ {r0 : RaftReplicator} {t0 t1 : RaftReplicaTracker} {target0 : RaftServer},
      c.trackerOf v target0 = some (r0, t0) → r = r0.setTracker target0 t1 →
      Paced (P.next made first.term c') c' v target0 r0.snapshot.term t1 →
      Paced (P.next made first.term c') c' v target r.snapshot.term t := by
    rintro r0 t0 t1 target0 h0 rfl hp
    rcases RaftReplicator.lookup_setTracker hlook with ⟨rfl, rfl⟩ | hlook
    · exact hp
    · exact hold (r := r0) (trackerOf_eq (trackerOf_some h0).1 hlook)
  cases hm with
  | still _ hsame =>
    rcases hsame with ⟨hsame, -⟩ | ⟨hnone, -⟩
    · exact hold (trackerOf_eq (hsame.symm.trans hr) hlook)
    · rw [hnone] at hr
      cases hr
  | activate hl hact =>
    obtain ⟨-, -, r', hr', hsnap, hnew⟩ := activate_frame hact
    rw [hr] at hr'
    cases hr'
    obtain ⟨before, after, hmem, -⟩ := List.lookup_eq_some_iff.mp hlook
    obtain rfl : t = r.newTracker (c.node v).state := (hnew (target, t) (by rw [hmem]; simp)).1
    have hmade := h.recalled.leader_made hl
    have hterm : r.snapshot.term = (c.node v).state.term := by rw [hsnap]; rfl
    unfold RaftReplicator.newTracker
    refine ⟨le_refl 1, fun _ _ => .inl ?_, ?_, fun item hi => ?_, fun item hi => (by cases hi)⟩
    · rw [hterm]
      exact hmade.mono h.subset
    · rintro (hc | hc | hc)
      · exact absurd rfl hc
      · split at hc <;> cases hc
      · split at hc <;> cases hc
    · dsimp only at hi
      split at hi <;> cases hi
  | idle ht0 hidle hn =>
    rw [hn] at hr
    refine hset ht0 (Option.some.inj hr).symm ?_
    rcases hidle with rfl | hgive
    · exact (hold ht0).checkSnapshot _
    · exact (hold ht0).giveUp hgive
  | push heq ht0 hpush hn ha =>
    rw [hn] at hr
    exact hset ht0 (Option.some.inj hr).symm (h.pushes hT hx heq ht0 hpush ha).1
  | @hear _ r0 _ _ _ heard ht0 hreply hh hn ha =>
    obtain ⟨t1, journal, hnode, -⟩ := hear_cases (c.node v) r0 _ heard
    rw [hn, hnode] at hr
    exact hset ht0 (Option.some.inj hr).symm (h.hears hT ht0 hreply hh ha).1
  | append _ hn =>
    rw [hn] at hr
    exact hold (trackerOf_eq hr hlook)
  | autoCommit _ hn =>
    rw [hn] at hr
    exact hold (trackerOf_eq hr hlook)

/-- What a node answers is so. -/
theorem answered (h : Advance P members first base c c' n node made)
    (hT : Tracked P members base c) {req : RaftAppendEntriesRequest} {lastApplied : Int}
    (hm : (n, req) ∈ c.appendRequests)
    (hn : node = { c.node n with
      state := ((RaftDispatcher.appendEntries lastApplied req).on (c.node n).state).2 })
    {resp : RaftAppendEntriesResponse}
    (hresp : ((RaftDispatcher.appendEntries lastApplied req).on (c.node n).state).1 = .ok resp) :
    Answers (P.next made first.term c') n (c'.node n).state req resp := by
  have ho := h.recalled.still_observed n req.term req.leader
  have hup := (ho.quiet.tended (h.recalled.tended n)).up
  rcases RaftDispatcher.appendEntries_replies hup hresp with
    hlt | ⟨ht, hterm, j', hstate, hsize, hres⟩
  · exact .inl hlt
  have hself : (c'.node n).state =
      { ((c.node n).state.observed req.term req.leader).2 with journal := j' } := by
    rw [h.self, hn]
    exact hstate
  refine .inr ⟨hterm, fun hout => ?_, fun hout => ?_⟩
  · rw [hout] at hres
    have hpath := (hT.path_of_accepted h.recalled hm ht hres).mono h.subset
    refine ⟨?_, fun hlast => ?_⟩
    · rw [hself]
      exact .inr ⟨ht, hpath⟩
    · -- The log of the node now ends in an entry of the term.
      have hgood := h.good n
      have hrec := h.written.logs n
      have hle := hgood.last_le
      rw [(h.elections.steady.sound n).term_eq] at hle
      rw [hself] at hgood hrec hle
      have hend : j'.termOfLastEntry = req.term := by
        refine last_of_accepted (s := ((c.node n).state.observed req.term req.leader).2) hrec
          ho.quiet.calm.sound.journal_good hgood
          (le_trans (h.recalled.base_le n) ho.quiet.calm.journal.start_le)
          (le_trans hle (le_of_eq ht)) (fun e he => ?_) (fun hnil => ?_) hres
        · unfold RaftAppendEntriesRequest.lastTerm at hlast
          rw [he] at hlast
          exact hlast
        · have hmade := (hT.requests _ hm).2.1 hnil
          refine ⟨?_, (h.recalled.sent _ hm).1.prev.unique h.recalled.written.single
            h.recalled.lawful.unbroken hmade.path⟩
          obtain ⟨p, e, he, -⟩ := hmade
          exact (h.recalled.lawful.grounded _ p e he).1
      obtain ⟨i, ⟨p, e, he, hterm'⟩, -⟩ := hpath
      have hfloor := h.floor_lt i p e he
      refine .inr ?_
      rw [hself]
      exact ⟨ht, hend, by rw [hsize], lt_of_lt_of_eq hfloor hterm'⟩
  · rw [hout] at hres
    obtain ⟨h1, h2⟩ := h.recalled.tested_of_refused hm ht hres
    have hgood := h.good n
    rw [hself] at hgood ⊢
    have hstay := rests_of_trims (L := made)
      (s := { ((c.node n).state.observed req.term req.leader).2 with journal := j' })
      (trims_self hgood)
    rw [hsize]
    exact ⟨h1.rests hgood h.subset (RaftState.later_self _) hstay,
      h2.rests hgood h.subset (RaftState.later_self _) hstay⟩

theorem replies (h : Advance P members first base c c' n node made)
    (hT : Tracked P members base c) {x : ClusterStep} (hm : Move c x c' n node) :
    ∀ m ∈ c'.appendReplies, ∃ target req, c'.appendRequests[m.1]? = some (target, req) ∧
      Answers (P.next made first.term c') target (c'.node target).state req m.2 := by
  intro m hnew
  have hold : m ∈ c.appendReplies → ∃ target req, c'.appendRequests[m.1]? = some (target, req) ∧
      Answers (P.next made first.term c') target (c'.node target).state req m.2 := by
    intro hreply
    obtain ⟨target, req, hreq, hans⟩ := hT.replies m hreply
    obtain ⟨rest, hrest⟩ := hm.requests_prefix
    obtain ⟨hlt, -⟩ := List.getElem?_eq_some_iff.mp hreq
    refine ⟨target, req, ?_, h.answers hans⟩
    rw [← hrest, List.getElem?_append_left hlt]
    exact hreq
  cases hm with
  | still _ _ _ hp => exact hold (by rwa [hp] at hnew)
  | activate _ _ _ hp => exact hold (by rwa [hp] at hnew)
  | idle _ _ _ _ hp => exact hold (by rwa [hp] at hnew)
  | push _ _ _ _ _ hp => exact hold (by rwa [hp] at hnew)
  | hear _ _ _ _ _ hp => exact hold (by rwa [hp] at hnew)
  | append hreq hn ha hp =>
    rcases hp m hnew with hreply | ⟨hnum, hresp⟩
    · exact hold hreply
    · refine ⟨n, _, ?_, h.answered hT (List.mem_of_getElem? hreq) hn hresp⟩
      rw [ha, hnum]
      exact hreq
  | autoCommit _ _ _ hp => exact hold (by rwa [hp] at hnew)

/-! ### What a step commits -/

/-- A leader that heard of a quorum commits what was chosen. -/
theorem committed_hear (h : Advance P members first base c c' n node made)
    (hT : Tracked P members base c) {x : ClusterStep} (hm : Move c x c' n node)
    (hx : c.sendsCurrent x) {target : RaftServer} {r : RaftReplicator} {t : RaftReplicaTracker}
    {request : Nat} {resp : RaftAppendEntriesResponse} {heard : RaftReplicaTracker.Heard}
    (hh : Hears c n r t request resp heard) (hn : node = (c.node n).hear r target heard) :
    Committed members.nodes base (P.next made first.term c') (c'.node n).state := by
  have hr := h.recalled_next hm hx
  have hstill : Still (c.Named n) _ _ :=
    hh.still (h.recalled.elections.steady.running h.recalled.elections.named)
  have hsame := hstill.commit_eq
  have hgood := h.recalled.good n
  have hstart := hgood.start_nonneg
  have hcommit := hgood.start_le_commit
  have hold : (c'.node n).state.journal.commitIndex = heard.state.journal.commitIndex →
      Committed members.nodes base (P.next made first.term c') (c'.node n).state :=
    fun heq => h.committed_same (hT.committed n) (heq.trans hsame)
  obtain ⟨t1, journal, hnode, hcase⟩ := hear_cases (c.node n) r target heard
  have hself : c'.node n = { c.node n with
      state := { heard.state with journal }, commitTracker := t1,
      replicator := some (r.setTracker target heard.tracker) } := by
    rw [h.self, hn]
    exact hnode
  have hj : (c'.node n).state.journal = journal := by rw [hself]
  rcases hcase with ⟨-, -, rfl⟩ | ⟨index, -, hupdate⟩
  · exact hold (congrArg RaftJournal.commitIndex hj)
  obtain ⟨t2, commitIndex, ht2, htracker, hjournal⟩ :=
    RaftCommitTracker.updateMatchIndex_cases (c.node n).commitTracker heard.state.journal target
      index
  obtain rfl : t1 = t2 := (congrArg Prod.fst hupdate).trans htracker
  have hsnd : journal = _ := congrArg Prod.snd hupdate
  rw [← hsnd] at hjournal
  rcases hjournal with hjournal | ⟨quorum, hne, hq, hjournal⟩
  · exact hold (by rw [hj, hjournal])
  rcases RaftCommitTracker.setCommitIndex_cases heard.state.journal quorum with hc | ⟨hc, hlt⟩
  · exact hold (by rw [hj, hjournal, hc])
  have hcounts : Counts (P.next made first.term c') members.nodes n r.snapshot.term t1 := by
    have hall := h.counts hT hm (v := n) (r := r.setTracker target heard.tracker) (by rw [hself])
    rw [hself] at hall
    exact hall
  obtain ⟨hchosen, k, hk, hheld⟩ :=
    hcounts.chosen hr (by rw [ht2]; exact hne) hq (by omega)
  refine committed_of_over hr hchosen (hr.term_of_held hheld) ?_
    (hr.over_of_chosen hchosen hheld hk)
  rw [hj, hjournal, hc]

/-- A follower commits what its leader had committed, where its log is that of the leader. -/
theorem committed_append (h : Advance P members first base c c' n node made)
    (hT : Tracked P members base c) {req : RaftAppendEntriesRequest} {lastApplied : Int}
    (hm : (n, req) ∈ c.appendRequests)
    (hn : node = { c.node n with
      state := ((RaftDispatcher.appendEntries lastApplied req).on (c.node n).state).2 }) :
    Committed members.nodes base (P.next made first.term c') (c'.node n).state := by
  have ho := h.recalled.still_observed n req.term req.leader
  have hself : (c'.node n).state =
      ((RaftDispatcher.appendEntries lastApplied req).on (c.node n).state).2 := by
    rw [h.self, hn]
  have hsame := fun heq => h.committed_same (hT.committed n) heq
  rcases RaftDispatcher.appendEntries_cases lastApplied req (c.node n).state with
    ⟨e, he⟩ | ⟨r, hres, -⟩ | ⟨ht, -, -, r, hres, -⟩
  · exact hsame (by rw [hself, he])
  · refine hsame ?_
    rw [hself, hres]
    exact ho.commit_eq
  rw [hres] at hself
  rcases RaftDispatcher.receiveEntries_commit ho.quiet.calm.sound.journal_good lastApplied req with
    hc | ⟨hle, err, hok⟩
  · refine hsame ?_
    rw [hself]
    exact hc.trans ho.commit_eq
  have hpath := hT.path_of_accepted h.recalled hm ht (Prod.ext hok rfl)
  rcases (hT.requests _ hm).2.2 with hbase | ⟨m, T', h1, h2, hchosen⟩
  · left
    rw [hself]
    exact le_trans hle hbase
  · have hchosen' := (h.recalled.lawful.path_of_chosen hchosen h2 hpath).mono h.subset
    have hlast := hpath.mono h.subset
    refine .inr ⟨m, T', ?_, ?_, h.chosen hchosen, fun e he => ?_⟩
    · rw [hself]
      exact le_trans hle h1
    · rw [hself]
      exact le_trans h2 (le_of_eq ht.symm)
    · have hover := (h.written.logs n).over_last (h.good n) (h.elections.steady.fixed n).base_le he
      rw [hself] at hover ⊢
      exact hchosen'.linear h.written.single h.unbroken (hlast.below hover) (le_trans hle h1)

/-- A node that is alone has chosen what it has. -/
theorem committed_autoCommit (h : Advance P members first base c c' n node made)
    (hT : Tracked P members base c) {x : ClusterStep} (hm : Move c x c' n node)
    (hx : c.sendsCurrent x) (hauto : (c.node n).commitTracker.autoCommitter = true)
    (hn : node = (c.node n).withJournal
      (RaftCommitTracker.runAutoCommit (c.node n).state.journal)) :
    Committed members.nodes base (P.next made first.term c') (c'.node n).state := by
  have hr := h.recalled_next hm hx
  have hj : (c'.node n).state.journal =
      RaftCommitTracker.runAutoCommit (c.node n).state.journal := by
    rw [h.self, hn]
    rfl
  have hsize := (RaftCommitTracker.commits_runAutoCommit (h.recalled.good n)).trims.size_eq
  rw [← hj] at hsize
  have hcommit : (c'.node n).state.journal.commitIndex = (c.node n).state.journal.commitIndex ∨
      (c'.node n).state.journal.commitIndex = (c'.node n).state.journal.logSize - 1 := by
    rw [hsize, hj]
    unfold RaftCommitTracker.runAutoCommit
    split
    · rcases RaftCommitTracker.setCommitIndex_cases (c.node n).state.journal
        ((c.node n).state.journal.logSize - 1) with hc | ⟨hc, -⟩
      · exact .inl hc
      · exact .inr hc
    · exact .inl rfl
  rcases hcommit with hc | hc
  · exact h.committed_same (hT.committed n) hc
  rcases hr.last n with ⟨hbase, -⟩ | hmade
  · exact .inl (by rw [hc, hbase])
  obtain ⟨a, k, ha, -, hk, hheld⟩ := hr.held_by_leader hmade
  obtain rfl := hT.alone n hauto a ha
  have hall : members.nodes ⊆ [a] := fun s hs => List.mem_singleton.mpr (hT.alone a hauto s hs)
  have hlen := (h.elections.nodup.subperm hall).length_le
  refine committed_of_over hr ⟨hmade, [a], List.nodup_singleton a, by simpa using ha, ?_, ?_⟩
    (hr.last_le a) (le_of_eq hc) (.refl _ _)
  · simp only [List.length_singleton] at hlen ⊢
    omega
  · intro v hv
    obtain rfl := List.mem_singleton.mp hv
    exact ⟨k, hk, hheld⟩

theorem committed (h : Advance P members first base c c' n node made)
    (hT : Tracked P members base c) {x : ClusterStep} (hm : Move c x c' n node)
    (hx : c.sendsCurrent x) (v : RaftServer) :
    Committed members.nodes base (P.next made first.term c') (c'.node v).state := by
  have hrunning := h.recalled.elections.steady.running h.recalled.elections.named
  by_cases hv : v = n
  swap
  · exact h.committed_same (hT.committed v) (by rw [h.other hv])
  subst hv
  have hself := h.self
  have hsame := fun heq => h.committed_same (hT.committed v) heq
  cases hmove : hm with
  | still hc => exact hsame (by rw [hself]; exact hc)
  | activate _ hact => exact hsame (by rw [hself, (activate_frame hact).1])
  | idle _ _ hn => exact hsame (by rw [hself, hn])
  | push _ _ hpush hn =>
    refine hsame ?_
    rw [hself, hn]
    have hstill : Still (c.Named v) _ _ ∧ _ := hpush.still hrunning
    exact hstill.1.commit_eq
  | hear _ _ hh hn => exact h.committed_hear hT hm hx hh hn
  | append hreq hn => exact h.committed_append hT (List.mem_of_getElem? hreq) hn
  | autoCommit hauto hn => exact h.committed_autoCommit hT hm hx hauto hn

/-- The replication stays as it was tracked. -/
theorem tracked_next (h : Advance P members first base c c' n node made)
    (hT : Tracked P members base c) {x : ClusterStep} (hm : Move c x c' n node)
    (hx : c.sendsCurrent x) : Tracked (P.next made first.term c') members base c' where
  committed := h.committed hT hm hx
  requests := h.requests hT hm hx
  replies := h.replies hT hm
  trackers _ _ _ _ ht := h.trackers hT hm hx ht
  counts _ _ hr := h.counts hT hm hr
  alone _ hauto := h.alone hT hm hauto

end Advance

end Cluster

end quarkdb
