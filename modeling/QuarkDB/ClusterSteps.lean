-- What a step of the cluster does to the state of its node and to the messages,
-- while the members stay as they are.
import QuarkDB.VoteSteps

namespace quarkdb

open RaftJournal (Good SameVote)
open RaftState (Later Kept)

/-! ## Turns -/

/-- The step leaves the members as they are. -/
def ClusterStep.KeepsMembers : ClusterStep → Prop
  | .changeMembers _ _ _ => False
  | _ => True

namespace Cluster

/-- The election round of a node goes on, or a vote came in for it. -/
def Continues (c : Cluster) (n : RaftServer) (el' : RaftElection) : Prop :=
  ∃ el, (c.node n).election = some el ∧ el'.req = el.req ∧ el'.contacted = el.contacted ∧
    ∀ p ∈ el'.votes, p ∈ el.votes ∨ (p.1, el.req, p.2) ∈ c.voteReplies

/-- A new reply that grants a vote is the vote of the node. -/
def Replies (c c' : Cluster) (n : RaftServer) (s : RaftState) : Prop :=
  ∀ m ∈ c'.voteReplies, m ∈ c.voteReplies ∨
    m.1 = n ∧ (m.2.2.vote = .GRANTED → s.term = m.2.1.term ∧ s.votedFor = m.2.1.candidate)

/-- A new append request carries entries of the journal of the node. -/
def Sends (c c' : Cluster) (n : RaftServer) : Prop :=
  ∀ m ∈ c'.appendRequests, m ∈ c.appendRequests ∨
    ∃ snapshotTerm nextIndex payloadLimit lastTerm,
      RaftReplicaTracker.sendPayload (c.node n).state snapshotTerm nextIndex payloadLimit =
        some (m.2, lastTerm)

/-- A message to the node names the leader of the term. -/
def Named (c : Cluster) (n : RaftServer) (term : Int) (leader : RaftServer) : Prop :=
  (∃ req, (n, req) ∈ c.heartbeats ∧ req.term = term ∧ req.leader = leader) ∨
    ∃ req, (n, req) ∈ c.appendRequests ∧ req.term = term ∧ req.leader = leader

/-- A node that does not vote, or votes for a candidate that asked for it. -/
def Votes (c : Cluster) (n : RaftServer) (s s' : RaftState) : Prop :=
  Quiet (c.Named n) s s' ∨ ∃ req, (n, req) ∈ c.voteRequests ∧ Grants s s' req

theorem Votes.calm {c : Cluster} {n : RaftServer} {s s' : RaftState} (h : Votes c n s s') :
    Calm s s' := by
  rcases h with hq | ⟨_, -, hg⟩
  · exact hq.calm
  · exact hg.calm

/-- The step of a node, by what it means for elections and journals. -/
inductive Turn (c c' : Cluster) (n : RaftServer) (node : RaftNode) : Prop
  | calm (hc : Votes c n (c.node n).state node.state)
      (he : ∀ el, node.election = some el → c.Continues n el)
      (hv : Replies c c' n node.state) (ha : Sends c c' n)
      (hr : c'.voteRequests = c.voteRequests)
  | candidacy {req : RaftVoteRequest} (hc : Campaign (c.node n).state node.state req)
      (he : node.election = some
        { req, contacted := node.state.getNodes.filter fun s => s ≠ n, votes := [] })
      (hv : c'.voteReplies = c.voteReplies) (ha : c'.appendRequests = c.appendRequests)
      (hr : ∀ m ∈ c'.voteRequests, m ∈ c.voteRequests ∨ m.2 = req ∧ m.1 ≠ n)
  | ascent {s0 : RaftState} {el : RaftElection} (he : (c.node n).election = some el)
      (hc : Calm (c.node n).state s0)
      (hout : RaftVoteRegistry.determineOutcome false el.contents = .kElected)
      (has : Ascent s0 node.state el.req.term) (hnone : node.election = none)
      (hv : c'.voteReplies = c.voteReplies) (ha : c'.appendRequests = c.appendRequests)
      (hr : c'.voteRequests = c.voteRequests)
      (hs : Ascends (c.node n).state node.state el.req.term)
  | append {entry : RaftEntry} (hl : (c.node n).state.status = .LEADER)
      (ht : entry.term = (c.node n).state.term)
      (hm : RaftJournal.isMembersUpdate entry.request = false)
      (hfits : (c.node n).state.journal.termOfLastEntry ≤ entry.term)
      (hn : node = (c.node n).withJournal ((c.node n).state.journal.withEntry entry))
      (hv : c'.voteReplies = c.voteReplies) (ha : c'.appendRequests = c.appendRequests)
      (hr : c'.voteRequests = c.voteRequests) (he : entry.request ≠ [])
  | receive {s0 : RaftState} {req : RaftAppendEntriesRequest} {lastApplied : Int}
      (hm : (n, req) ∈ c.appendRequests) (hc : Still (c.Named n) (c.node n).state s0)
      (ht : s0.term = req.term) (hl : s0.leader = req.leader) (hne : req.leader ≠ s0.myself)
      (hn : node = { c.node n with state := { s0 with
        journal := ((RaftDispatcher.receiveEntries lastApplied req).on s0.journal).2 } })
      (hv : c'.voteReplies = c.voteReplies) (ha : c'.appendRequests = c.appendRequests)
      (hr : c'.voteRequests = c.voteRequests)

/-- The new state of a tracker that neither sends nor hears. -/
def Idles (c : Cluster) (n : RaftServer) (r : RaftReplicator) (t t' : RaftReplicaTracker) : Prop :=
  t' = t.checkSnapshot ((c.node n).isCurrent r) ∨ giveUp t = some t'

/-- What a tracker sends next, as the phase of its thread says. -/
def Pushes (c : Cluster) (n : RaftServer) (r : RaftReplicator) (t : RaftReplicaTracker)
    (p : RaftReplicaTracker.Pushed) : Prop :=
  t.phase = .ready ∧
      p = t.pushConservative (c.node n).state r.snapshot.term c.appendRequests.length ∨
    t.phase = .streamReady ∧
      p = t.pushStreaming (c.node n).state r.snapshot.term c.appendRequests.length

/-- What a tracker does with the response to a request of its own. -/
def Hears (c : Cluster) (n : RaftServer) (r : RaftReplicator) (t : RaftReplicaTracker)
    (request : Nat) (resp : RaftAppendEntriesResponse) (heard : RaftReplicaTracker.Heard) : Prop :=
  (∃ item, t.phase = .awaiting item ∧ item.request = request ∧
      heard = t.retrieve (c.node n).state r.snapshot.term item resp) ∨
    ∃ item ∈ t.inFlight, item.request = request ∧
      heard = t.acknowledge (c.node n).state r.snapshot.term item resp

/-- The step of a node, by what it means for replication. -/
inductive Move (c : Cluster) (x : ClusterStep) (c' : Cluster) (n : RaftServer) (node : RaftNode) :
    Prop
  | still (hc : node.state.journal.commitIndex = (c.node n).state.journal.commitIndex)
      (hr : (node.replicator = (c.node n).replicator ∧
          node.commitTracker = (c.node n).commitTracker) ∨
        node.replicator = none ∧ (node.commitTracker = (c.node n).commitTracker.reset ∨
          node.commitTracker = .ofJournal node.state.journal))
      (ha : c'.appendRequests = c.appendRequests) (hp : c'.appendReplies = c.appendReplies)
  | activate (hl : (c.node n).state.status = .LEADER) (hn : (c.node n).activate = .ok node)
      (ha : c'.appendRequests = c.appendRequests) (hp : c'.appendReplies = c.appendReplies)
  | idle {target : RaftServer} {r : RaftReplicator} {t t' : RaftReplicaTracker}
      (ht : c.trackerOf n target = some (r, t)) (hi : Idles c n r t t')
      (hn : node = { c.node n with replicator := some (r.setTracker target t') })
      (ha : c'.appendRequests = c.appendRequests) (hp : c'.appendReplies = c.appendReplies)
  | push {target : RaftServer} {r : RaftReplicator} {t : RaftReplicaTracker}
      {p : RaftReplicaTracker.Pushed} (hx : x = .sendPayload n target)
      (ht : c.trackerOf n target = some (r, t)) (hpush : Pushes c n r t p)
      (hn : node = { c.node n with
        state := p.state, replicator := some (r.setTracker target p.tracker) })
      (ha : c'.appendRequests = c.appendRequests ++ p.sent.toList.map fun req => (target, req))
      (hp : c'.appendReplies = c.appendReplies)
  | hear {target : RaftServer} {r : RaftReplicator} {t : RaftReplicaTracker} {request : Nat}
      {resp : RaftAppendEntriesResponse} {heard : RaftReplicaTracker.Heard}
      (ht : c.trackerOf n target = some (r, t)) (hm : (request, resp) ∈ c.appendReplies)
      (hh : Hears c n r t request resp heard) (hn : node = (c.node n).hear r target heard)
      (ha : c'.appendRequests = c.appendRequests) (hp : c'.appendReplies = c.appendReplies)
  | append {request : Nat} {req : RaftAppendEntriesRequest} {lastApplied : Int}
      (hm : c.appendRequests[request]? = some (n, req))
      (hn : node = { c.node n with
        state := ((RaftDispatcher.appendEntries lastApplied req).on (c.node n).state).2 })
      (ha : c'.appendRequests = c.appendRequests)
      (hp : ∀ m ∈ c'.appendReplies, m ∈ c.appendReplies ∨ m.1 = request ∧
        ((RaftDispatcher.appendEntries lastApplied req).on (c.node n).state).1 = .ok m.2)
  | autoCommit (hauto : (c.node n).commitTracker.autoCommitter = true)
      (hn : node = (c.node n).withJournal
        (RaftCommitTracker.runAutoCommit (c.node n).state.journal))
      (ha : c'.appendRequests = c.appendRequests) (hp : c'.appendReplies = c.appendReplies)

/-- A new heartbeat is one of a tracker of the node. -/
def Beats (c c' : Cluster) (n : RaftServer) : Prop :=
  ∀ m ∈ c'.heartbeats, m ∈ c.heartbeats ∨ ∃ r t, c.trackerOf n m.1 = some (r, t) ∧
    m.2 = { term := r.snapshot.term, leader := n }

theorem beats_same {c c' : Cluster} {n : RaftServer} (h : c'.heartbeats = c.heartbeats) :
    Beats c c' n := fun m hm => .inl (by rwa [h] at hm)

theorem continues_same {c : Cluster} {n : RaftServer} {el : RaftElection}
    (h : (c.node n).election = some el) : c.Continues n el :=
  ⟨el, h, rfl, rfl, fun _ hp => .inl hp⟩

theorem replies_same {c c' : Cluster} {n : RaftServer} {s : RaftState}
    (h : c'.voteReplies = c.voteReplies) : Replies c c' n s := fun m hm => .inl (by rwa [h] at hm)

theorem sends_same {c c' : Cluster} {n : RaftServer} (h : c'.appendRequests = c.appendRequests) :
    Sends c c' n := fun m hm => .inl (by rwa [h] at hm)

/-- A node whose state changed quietly, and nothing else that matters. -/
theorem turn_of_quiet {c c' : Cluster} {n : RaftServer} {node : RaftNode}
    (hc : Quiet (c.Named n) (c.node n).state node.state)
    (he : node.election = (c.node n).election ∨ node.election = none)
    (hv : c'.voteReplies = c.voteReplies) (ha : c'.appendRequests = c.appendRequests)
    (hr : c'.voteRequests = c.voteRequests) : Turn c c' n node := by
  refine .calm (.inl hc) (fun el hel => ?_) (replies_same hv) (sends_same ha) hr
  rcases he with he | he
  · exact continues_same (he.symm.trans hel)
  · rw [he] at hel
    cases hel

theorem reconfigure_frame {n n' : RaftNode} (h : n.reconfigure = .ok n') :
    n'.state = n.state ∧ n'.election = n.election := by
  unfold RaftNode.reconfigure at h
  cases hf : RaftNode.allServersExceptMyself n.state.journal.members.nodes n.state.myself with
  | error e => simp [hf, bind, Except.bind] at h
  | ok fullNodes =>
    simp only [hf, bind, Except.bind, pure, Except.pure] at h
    split at h
    · cases h
    split at h
    · cases h
      exact ⟨rfl, rfl⟩
    · split at h
      · cases h
      · cases h
        exact ⟨rfl, rfl⟩

/-- What the steps of a cluster rely on: every node is sound and knows its own name. -/
structure Running (c : Cluster) : Prop where
  sound : ∀ n, RaftState.Sound (c.node n).state
  named : ∀ n, NamedOrFollower (c.node n).state
  myself : ∀ n, (c.node n).state.myself = n

section

variable {c c' : Cluster} {n : RaftServer}

theorem appendNoLock_nonempty {j j' : RaftJournal} {index : Int} {entry : RaftEntry}
    (h : (RaftJournal.appendNoLock index entry).on j = (.ok true, j')) : entry.request ≠ [] := by
  intro hnil
  unfold RaftJournal.appendNoLock at h
  by_cases h1 : index ≠ j.logSize
  · simp [h1] at h
  by_cases h2 : j.currentTerm < entry.term
  · simp [h2] at h
  by_cases h3 : entry.term < j.termOfLastEntry
  · simp [h2, h3] at h
  · simp [not_not.mp h1, h2, h3, hnil] at h

theorem turn_clientAppend (h : Running c) {request : RedisRequest}
    (hl : (c.node n).state.status = .LEADER)
    (hm : ¬ RaftJournal.isMembersUpdate request) :
    Turn c (c.setNode n ((c.node n).withJournal
      ((RaftJournal.append (c.node n).state.journal.logSize
        { term := (c.node n).state.term, request }).on (c.node n).state.journal).2)) n
      ((c.node n).withJournal ((RaftJournal.append (c.node n).state.journal.logSize
        { term := (c.node n).state.term, request }).on (c.node n).state.journal).2) := by
  have hg := (h.sound n).journal_good
  rcases RaftJournal.appendNoLock_cases hg.commit_lt_size (RaftJournal.size_nonneg hg)
    (c.node n).state.journal.logSize { term := (c.node n).state.term, request } with
    ⟨r, ha, -⟩ | ⟨-, -, hfits, j', hj, ha⟩
  · unfold RaftJournal.append
    rw [ha]
    exact turn_of_quiet (quiet_self (h.sound n)) (.inl rfl) rfl rfl rfl
  · obtain rfl : j' = (c.node n).state.journal := by
      cases hj with
      | other => rfl
      | foreign => rfl
      | members _ hu => exact absurd hu hm
    unfold RaftJournal.append
    rw [ha]
    exact .append hl rfl (by simpa using hm) hfits rfl rfl rfl rfl (appendNoLock_nonempty ha)

theorem turn_startElection (h : Running c) (x : ClusterStep) :
    ∃ node, (c.startElection n).node = (c.setNode n node).node ∧
      Turn c (c.startElection n) n node ∧ Move c x (c.startElection n) n node ∧
        Beats c (c.startElection n) n := by
  unfold startElection
  rcases runForLeader_still_or_stands (h.sound n) (h.named n) with ⟨hc, hnone⟩ | ⟨req, hreq, hc⟩
  · rw [show runForLeader (c.node n).state = ((runForLeader (c.node n).state).1, none) from
      Prod.ext rfl hnone]
    exact ⟨_, rfl, turn_of_quiet hc.quiet (.inl rfl) rfl rfl rfl,
      .still hc.commit_eq (.inl ⟨rfl, rfl⟩) rfl rfl, beats_same rfl⟩
  · rw [show runForLeader (c.node n).state = ((runForLeader (c.node n).state).1, some req) from
      Prod.ext rfl hreq]
    refine ⟨_, rfl, .candidacy hc rfl rfl rfl fun m hm => ?_,
      .still hc.commit_eq (.inl ⟨rfl, rfl⟩) rfl rfl, beats_same rfl⟩
    rcases List.mem_append.mp hm with hm | hm
    · exact .inl hm
    · obtain ⟨s, hs, rfl⟩ := List.mem_map.mp hm
      exact .inr ⟨rfl, by simpa using (List.mem_filter.mp hs).2⟩

theorem Pushes.still {Named : Int → RaftServer → Prop} (h : Running c) {r : RaftReplicator}
    {t : RaftReplicaTracker} {p : RaftReplicaTracker.Pushed} (hp : Pushes c n r t p) :
    Still Named (c.node n).state p.state ∧
      RaftReplicaTracker.Sends (c.node n).state r.snapshot.term p := by
  rcases hp with ⟨-, rfl⟩ | ⟨-, rfl⟩
  · exact RaftReplicaTracker.still_pushConservative t (h.sound n) (h.named n) _ _
  · exact RaftReplicaTracker.still_pushStreaming t (h.sound n) (h.named n) _ _

theorem turn_push (h : Running c) {target : RaftServer} {r : RaftReplicator}
    {t : RaftReplicaTracker} (ht : c.trackerOf n target = some (r, t))
    (hp : c.push n target r t = some c') : ∃ node, c'.node = (c.setNode n node).node ∧
      Turn c c' n node ∧ Move c (.sendPayload n target) c' n node ∧ Beats c c' n := by
  unfold push at hp
  obtain ⟨p, hpushed, rfl⟩ := Option.map_eq_some_iff.mp hp
  have hpush : Pushes c n r t p := by
    split at hpushed
    · rename_i hphase
      exact .inl ⟨hphase, (Option.some.inj hpushed).symm⟩
    · rename_i hphase
      exact .inr ⟨hphase, (Option.some.inj hpushed).symm⟩
    · cases hpushed
  have hstill : Still (c.Named n) _ _ ∧ _ := hpush.still h
  refine ⟨_, rfl, .calm (.inl hstill.1.quiet) (fun el hel => continues_same hel) (replies_same rfl)
    ?_ rfl, .push rfl ht hpush rfl rfl rfl, beats_same rfl⟩
  intro m hm
  rcases List.mem_append.mp hm with hm | hm
  · exact .inl hm
  · obtain ⟨req, hreq, rfl⟩ := List.mem_map.mp hm
    obtain ⟨nextIndex, payloadLimit, lastTerm, hsent⟩ := hstill.2 req (by simpa using hreq)
    exact .inr ⟨_, nextIndex, payloadLimit, lastTerm, hsent⟩

theorem Hears.still {Named : Int → RaftServer → Prop} (h : Running c) {r : RaftReplicator}
    {t : RaftReplicaTracker} {request : Nat} {resp : RaftAppendEntriesResponse}
    {heard : RaftReplicaTracker.Heard} (hh : Hears c n r t request resp heard) :
    Still Named (c.node n).state heard.state := by
  rcases hh with ⟨item, -, -, rfl⟩ | ⟨item, -, -, rfl⟩
  · exact RaftReplicaTracker.still_retrieve t (h.sound n) (h.named n) _ _ _
  · exact RaftReplicaTracker.still_acknowledge t (h.sound n) (h.named n) _ _ _

theorem turn_hear (h : Running c) {x : ClusterStep} {target : RaftServer} {r : RaftReplicator}
    {t : RaftReplicaTracker} {request : Nat} {resp : RaftAppendEntriesResponse}
    (ht : c.trackerOf n target = some (r, t)) (hm : (request, resp) ∈ c.appendReplies)
    (hp : c.hear n target r t request resp = some c') : ∃ node, c'.node = (c.setNode n node).node ∧
      Turn c c' n node ∧ Move c x c' n node ∧ Beats c c' n := by
  obtain ⟨heard, hh, rfl⟩ : ∃ heard, Hears c n r t request resp heard ∧
      c' = c.setNode n ((c.node n).hear r target heard) := by
    unfold hear at hp
    split at hp
    · rename_i item hphase
      split at hp
      · rename_i hreq
        cases hp
        exact ⟨_, .inl ⟨item, hphase, hreq, rfl⟩, rfl⟩
      · cases hp
    · rename_i item rest hphase hflight
      split at hp
      · rename_i hreq
        cases hp
        exact ⟨_, .inr ⟨item, by simp [hflight], hreq.1, rfl⟩, rfl⟩
      · cases hp
    · rename_i item rest hphase hflight
      split at hp
      · rename_i hreq
        cases hp
        exact ⟨_, .inr ⟨item, by simp [hflight], hreq.1, rfl⟩, rfl⟩
      · cases hp
    · cases hp
  obtain ⟨h1, h2⟩ := (c.node n).quiet_hear r target heard (hh.still h).quiet
  exact ⟨_, rfl, turn_of_quiet h1 (.inl h2) rfl rfl rfl, .hear ht hm hh rfl rfl rfl, beats_same rfl⟩

theorem turn_requestVote (h : Running c) {req : RaftVoteRequest} (hm : (n, req) ∈ c.voteRequests)
    (hv : ∀ m ∈ c'.voteReplies, m ∈ c.voteReplies ∨ ∃ resp,
      (RaftDispatcher.requestVote (c.node n).state req false).1 = .ok resp ∧ m = (n, req, resp))
    (ha : c'.appendRequests = c.appendRequests) (hr : c'.voteRequests = c.voteRequests) :
    Turn c c' n { c.node n with
      state := (RaftDispatcher.requestVote (c.node n).state req false).2 } := by
  have hcases : (Still (c.Named n) _ _ ∧ _) ∨ _ :=
    RaftDispatcher.requestVote_still_or_grants (h.sound n) (h.named n) req
  have hvotes : Votes c n (c.node n).state
      (RaftDispatcher.requestVote (c.node n).state req false).2 := by
    rcases hcases with ⟨hs, -⟩ | hg
    · exact .inl hs.quiet
    · exact .inr ⟨req, hm, hg⟩
  refine .calm hvotes (fun el hel => continues_same hel) (fun m hm => ?_) (sends_same ha) hr
  rcases hv m hm with hm | ⟨resp, hresp, rfl⟩
  · exact .inl hm
  · refine .inr ⟨rfl, fun hgranted => ?_⟩
    rcases hcases with ⟨-, hne⟩ | hg
    · exact absurd hgranted (hne resp hresp)
    · exact ⟨hg.term, hg.vote⟩

theorem turn_registerVote (h : Running c) {el : RaftElection}
    (hel : (c.node n).election = some el) {srv : RaftServer} {req : RaftVoteRequest}
    {resp : RaftVoteResponse} (hm : (srv, req, resp) ∈ c.voteReplies) :
    Turn c (c.setNode n { c.node n with election := some (registerVote el srv req resp) }) n
      { c.node n with election := some (registerVote el srv req resp) } := by
  refine .calm (.inl (quiet_self (h.sound n))) ?_ (replies_same rfl) (sends_same rfl) rfl
  rintro el' ⟨⟩
  unfold registerVote
  split
  · rename_i hreq
    refine ⟨el, hel, rfl, rfl, fun p hp => ?_⟩
    rcases List.mem_append.mp hp with hp | hp
    · exact .inl hp
    · obtain rfl := List.mem_singleton.mp hp
      exact .inr (hreq.1 ▸ hm)
  · exact continues_same hel

theorem turn_appendEntries (h : Running c) {req : RaftAppendEntriesRequest}
    (hm : (n, req) ∈ c.appendRequests) (lastApplied : Int)
    (hv : c'.voteReplies = c.voteReplies) (ha : c'.appendRequests = c.appendRequests)
    (hr : c'.voteRequests = c.voteRequests) :
    Turn c c' n { c.node n with
      state := ((RaftDispatcher.appendEntries lastApplied req).on (c.node n).state).2 } := by
  have ho : Still (c.Named n) (c.node n).state _ :=
    RaftState.still_observed (h.sound n) (h.named n) req.term req.leader
      (.inr (.inr ⟨req, hm, rfl, rfl⟩))
  rcases RaftDispatcher.appendEntries_cases lastApplied req (c.node n).state with
    ⟨e, he⟩ | ⟨r, hres, -⟩ | ⟨ht, hl, hne, r, hres, -⟩
  · rw [he]
    exact turn_of_quiet (quiet_self (h.sound n)) (.inl rfl) hv ha hr
  · rw [hres]
    exact turn_of_quiet ho.quiet (.inl rfl) hv ha hr
  · rw [hres]
    exact .receive hm ho ht hl (by rw [ho.quiet.calm.later.myself]; exact hne) rfl hv ha hr

end

/-- One step that keeps the members: one node takes its turn, and the others stay as
they are. -/
theorem step_turn {c c' : Cluster} {x : ClusterStep} (h : Running c) (hx : x.KeepsMembers)
    (hs : c.step x = some c') :
    ∃ n node, c'.node = (c.setNode n node).node ∧ Turn c c' n node ∧ Move c x c' n node ∧
      Beats c c' n := by
  have hstill : ∀ {n : RaftServer} {node : RaftNode},
      Still (c.Named n) (c.node n).state node.state →
      node.election = (c.node n).election → node.replicator = (c.node n).replicator →
      node.commitTracker = (c.node n).commitTracker → ∃ n' node',
        (c.setNode n node).node = (c.setNode n' node').node ∧ Turn c (c.setNode n node) n' node' ∧
          Move c x (c.setNode n node) n' node' ∧ Beats c (c.setNode n node) n' :=
    fun hc he hr ht => ⟨_, _, rfl, turn_of_quiet hc.quiet (.inl he) rfl rfl rfl,
      .still hc.commit_eq (.inl ⟨hr, ht⟩) rfl rfl, beats_same rfl⟩
  cases x with
  | observe n term =>
    cases hs
    exact hstill (RaftState.still_observed (h.sound n) (h.named n) term {} (.inl rfl)) rfl rfl rfl
  | runForLeader n =>
    simp only [step] at hs
    split at hs
    · cases hs
      exact ⟨n, turn_startElection h _⟩
    · cases hs
  | requestVote request =>
    obtain ⟨⟨n, req⟩, hreq, rfl⟩ := Option.map_eq_some_iff.mp hs
    refine ⟨n, _, rfl, turn_requestVote h (List.mem_of_getElem? hreq) (fun m hm => ?_) rfl rfl,
      .still ?_ (.inl ⟨rfl, rfl⟩) rfl rfl, beats_same rfl⟩
    · rcases List.mem_append.mp hm with hm | hm
      · exact .inl hm
      · refine .inr ?_
        cases hr : (RaftDispatcher.requestVote (c.node n).state req false).1 with
        | error e =>
          rw [hr] at hm
          cases hm
        | ok resp =>
          rw [hr] at hm
          exact ⟨resp, rfl, List.mem_singleton.mp hm⟩
    · have hcases : (Still (c.Named n) _ _ ∧ _) ∨ _ :=
        RaftDispatcher.requestVote_still_or_grants (h.sound n) (h.named n) req
      rcases hcases with ⟨hc, -⟩ | hg
      · exact hc.commit_eq
      · exact hg.commit_eq
  | registerVote n reply =>
    simp only [step] at hs
    split at hs
    · rename_i hr hel
      cases hs
      exact ⟨n, _, rfl, turn_registerVote h hel (List.mem_of_getElem? hr),
        .still rfl (.inl ⟨rfl, rfl⟩) rfl rfl, beats_same rfl⟩
    · cases hs
  | concludeElection n =>
    obtain ⟨el, hel, rfl⟩ := Option.map_eq_some_iff.mp hs
    have hcases : Still (c.Named n) _ _ ∨ _ :=
      RaftElection.conclude_still_or_ascends (h.sound n) (h.named n) el
    rcases hcases with
      hc | ⟨s0, hc, hout, has, hwas⟩
    · exact ⟨n, _, rfl, turn_of_quiet hc.quiet (.inr rfl) rfl rfl rfl,
        .still hc.commit_eq (.inl ⟨rfl, rfl⟩) rfl rfl, beats_same rfl⟩
    · exact ⟨n, _, rfl, .ascent hel hc hout has rfl rfl rfl rfl hwas,
        .still hwas.commit_eq (.inl ⟨rfl, rfl⟩) rfl rfl, beats_same rfl⟩
  | activate n =>
    simp only [step] at hs
    split at hs
    · rename_i hl
      split at hs
      · rename_i node hact
        cases hs
        obtain ⟨h1, h2⟩ := reconfigure_frame hact
        exact ⟨n, node, rfl,
          turn_of_quiet (by rw [h1]; exact quiet_self (h.sound n)) (.inl h2) rfl rfl rfl,
          .activate hl.1 hact rfl rfl, beats_same rfl⟩
      · cases hs
    · cases hs
  | deactivate n =>
    simp only [step] at hs
    split at hs
    · split at hs
      · cases hs
      · cases hs
        exact ⟨n, _, rfl, turn_of_quiet (quiet_self (h.sound n)) (.inl rfl) rfl rfl rfl,
          .still rfl (.inr ⟨rfl, .inl rfl⟩) rfl rfl, beats_same rfl⟩
    · cases hs
  | clientAppend n request =>
    simp only [step] at hs
    split at hs
    · rename_i hl
      cases hs
      refine ⟨n, _, rfl, turn_clientAppend h hl.1 hl.2, .still ?_ (.inl ⟨rfl, rfl⟩) rfl rfl,
        beats_same rfl⟩
      have hg := (h.sound n).journal_good
      show ((RaftJournal.append _ _).on _).2.commitIndex = _
      unfold RaftJournal.append
      rcases RaftJournal.appendNoLock_cases hg.commit_lt_size (RaftJournal.size_nonneg hg)
        (c.node n).state.journal.logSize { term := (c.node n).state.term, request } with
        ⟨r, ha, -⟩ | ⟨-, -, -, j', hj, ha⟩
      · rw [ha]
      · rw [ha]
        exact (RaftJournal.takes_frame hj).2.2.2.1
    · cases hs
  | changeMembers n change srv => exact absurd hx id
  | sendHeartbeat n target =>
    obtain ⟨⟨r, t⟩, ht, rfl⟩ := Option.map_eq_some_iff.mp hs
    refine ⟨n, c.node n, ?_, turn_of_quiet (quiet_self (h.sound n)) (.inl rfl) rfl rfl rfl,
      .still rfl (.inl ⟨rfl, rfl⟩) rfl rfl, fun m hm => ?_⟩
    · funext m
      show c.node m = if m = n then c.node n else c.node m
      split
      · rename_i hmn
        rw [hmn]
      · rfl
    · rcases List.mem_append.mp hm with hm | hm
      · exact .inl hm
      · obtain rfl := List.mem_singleton.mp hm
        exact .inr ⟨r, t, ht, rfl⟩
  | heartbeat request =>
    obtain ⟨⟨n, req⟩, hreq, rfl⟩ := Option.map_eq_some_iff.mp hs
    exact hstill (RaftDispatcher.still_heartbeat (h.sound n) (h.named n) req
      (.inl ⟨req, List.mem_of_getElem? hreq, rfl, rfl⟩)) rfl rfl rfl
  | checkSnapshot n target =>
    obtain ⟨⟨r, t⟩, ht, rfl⟩ := Option.map_eq_some_iff.mp hs
    exact ⟨n, _, rfl, turn_of_quiet (quiet_self (h.sound n)) (.inl rfl) rfl rfl rfl,
      .idle ht (.inl rfl) rfl rfl rfl, beats_same rfl⟩
  | sendPayload n target =>
    simp only [step] at hs
    split at hs
    · rename_i ht
      exact ⟨n, turn_push h ht hs⟩
    · cases hs
  | appendEntries request lastApplied =>
    obtain ⟨⟨n, req⟩, hreq, rfl⟩ := Option.map_eq_some_iff.mp hs
    refine ⟨n, _, rfl, turn_appendEntries h (List.mem_of_getElem? hreq) lastApplied rfl rfl rfl,
      .append hreq rfl rfl fun m hm => ?_, beats_same rfl⟩
    rcases List.mem_append.mp hm with hm | hm
    · exact .inl hm
    · cases hr : ((RaftDispatcher.appendEntries lastApplied req).on (c.node n).state).1 with
      | error e =>
        rw [hr] at hm
        cases hm
      | ok resp =>
        rw [hr] at hm
        obtain rfl := List.mem_singleton.mp hm
        exact .inr ⟨rfl, rfl⟩
  | retrieve n target reply =>
    simp only [step] at hs
    split at hs
    · rename_i ht hreply
      exact ⟨n, turn_hear h ht (List.mem_of_getElem? hreply) hs⟩
    · cases hs
  | giveUp n target =>
    simp only [step] at hs
    split at hs
    · rename_i ht
      obtain ⟨t', hgive, rfl⟩ := Option.map_eq_some_iff.mp hs
      exact ⟨n, _, rfl, turn_of_quiet (quiet_self (h.sound n)) (.inl rfl) rfl rfl rfl,
        .idle ht (.inr hgive) rfl rfl rfl, beats_same rfl⟩
    · cases hs
  | autoCommit n =>
    simp only [step] at hs
    split at hs
    · rename_i hauto
      cases hs
      have hg := (h.sound n).journal_good
      exact ⟨n, _, rfl, turn_of_quiet
        (quiet_journal (h.sound n) (RaftCommitTracker.commits_runAutoCommit hg)) (.inl rfl) rfl rfl
        rfl, .autoCommit hauto rfl rfl rfl, beats_same rfl⟩
    · cases hs
  | trim n newLogStart =>
    cases hs
    have hg := (h.sound n).journal_good
    refine hstill ⟨quiet_journal (h.sound n)
      ⟨trims_trimUntil hg newLogStart, (RaftJournal.good_trimUntil hg newLogStart).2.2⟩, ?_⟩ rfl rfl
      rfl
    show ((RaftJournal.trimUntil newLogStart).on _).2.commitIndex = _
    rw [RaftJournal.trimUntil_on]
    split
    · rfl
    split
    · rfl
    split <;> rfl
  | restart n =>
    obtain ⟨node, hr, rfl⟩ := Option.map_eq_some_iff.mp hs
    obtain ⟨s, hopen, rfl⟩ := Option.map_eq_some_iff.mp hr
    have hc : Still (c.Named n) _ _ := RaftState.still_restart (h.sound n) hopen
    exact ⟨n, _, rfl, turn_of_quiet hc.quiet (.inr rfl) rfl rfl rfl,
      .still hc.commit_eq (.inr ⟨rfl, .inr rfl⟩) rfl rfl, beats_same rfl⟩

end Cluster

end quarkdb
