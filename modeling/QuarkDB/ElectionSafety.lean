-- Elections of a cluster whose members stay as they are: in every run, however
-- messages are lost, late or repeated, and wherever nodes restart, a term has at
-- most one leader.
import QuarkDB.ClusterSteps
import QuarkDB.Consensus
import QuarkDB.JournalMembership
import QuarkDB.Quorums

namespace quarkdb

open RaftJournal (Good SameVote)
open RaftState (Later)

/-! ## Members -/

/-- The journal has the members it was created with, and above the index of that entry
no other entry about members. -/
structure FixedMembers (members : RaftMembers) (base : Int) (j : RaftJournal) : Prop where
  members_eq : j.members = members
  epoch_eq : j.membershipEpoch = base
  base_le : base ≤ j.logStart
  plain : ∀ i e, base < i → j.db.entries i = some e →
    RaftJournal.isMembersUpdate e.request = false

section

variable {members : RaftMembers} {base : Int} {j j' : RaftJournal}

theorem FixedMembers.trims (h : FixedMembers members base j) (ht : Trims j j') :
    FixedMembers members base j' :=
  ⟨ht.members_eq.trans h.members_eq, ht.epoch_eq.trans h.epoch_eq, le_trans h.base_le ht.start_le,
    fun i e hi he => h.plain i e hi (ht.entries i e he)⟩

theorem FixedMembers.withEntry (h : FixedMembers members base j) {entry : RaftEntry}
    (hm : RaftJournal.isMembersUpdate entry.request = false) :
    FixedMembers members base (j.withEntry entry) := by
  refine ⟨h.members_eq, h.epoch_eq, h.base_le, fun i e hi he => ?_⟩
  rw [RaftJournal.withEntry_entries] at he
  split at he
  · cases he
    exact hm
  · exact h.plain i e hi he

theorem takes_plain {request : RedisRequest} (ht : RaftJournal.Takes j request j')
    (hm : RaftJournal.isMembersUpdate request = false) : j' = j := by
  cases ht with
  | other => rfl
  | foreign => rfl
  | members _ hu =>
    rw [hm] at hu
    cases hu

theorem FixedMembers.appended (h : FixedMembers members base j) {entries : List RaftEntry}
    (ha : RaftDispatcher.Appended j entries j')
    (hm : ∀ e ∈ entries, RaftJournal.isMembersUpdate e.request = false) :
    FixedMembers members base j' := by
  induction ha with
  | nil j => exact h
  | @cons j j1 j' entry rest htk _ _ _ ih =>
    obtain rfl := takes_plain htk (hm entry (by simp))
    exact ih (h.withEntry (hm entry (by simp))) fun e he => hm e (by simp [he])

/-- A cut is above the commit index, and so above the entry with the members. -/
theorem FixedMembers.cut (h : FixedMembers members base j) (hg : Good j) {first : Int}
    (hc : RaftDispatcher.Cut j first j') : FixedMembers members base j' := by
  cases hc with
  | nothing => exact h
  | @entries j0 entry hcom hsize hr he =>
    have h1 := hg.start_le_commit
    have h2 := h.base_le
    have h3 := h.epoch_eq
    cases hr with
    | keep =>
      refine ⟨h.members_eq, h3, h2, fun i e hi hie => h.plain i e hi ?_⟩
      rw [RaftJournal.withoutEntries_entries] at hie
      split at hie
      · cases hie
      · exact hie
    | back hle => omega

theorem FixedMembers.receive (h : FixedMembers members base j) (hg : Good j) (lastApplied : Int)
    {req : RaftAppendEntriesRequest}
    (hm : ∀ e ∈ req.entries, RaftJournal.isMembersUpdate e.request = false) :
    FixedMembers members base ((RaftDispatcher.receiveEntries lastApplied req).on j).2 := by
  obtain ⟨j2, hc, -, rfl | ⟨first, j1, k, -, -, -, hcut, happ⟩⟩ :=
    RaftDispatcher.receiveEntries_leaves hg lastApplied req
  · exact h.trims hc.trims
  · refine ((h.cut hg hcut).appended happ fun e he => hm e ?_).trims hc.trims
    exact List.mem_of_mem_drop (List.mem_of_mem_take he)

end

theorem fixedMembers_obliterate {clusterID : RaftClusterID} {nodes : List RaftServer}
    {startIndex : Int} {j : RaftJournal}
    (h : RaftJournal.obliterate clusterID nodes startIndex = .ok j) :
    FixedMembers j.members startIndex j := by
  unfold RaftJournal.obliterate RaftJournal.initializeJournal at h
  have hs : startIndex + 1 - 1 = startIndex := by omega
  simp only [hs, if_true, bind, Except.bind, pure, Except.pure] at h
  cases hp : RaftMembers.parse (RaftMembers.toBytes { nodes := nodes, observers := [] }) with
  | none => simp [RaftMembers.ofBytes, hp] at h
  | some m =>
    simp only [RaftMembers.ofBytes, hp, parseVote, if_true, Except.ok.injEq] at h
    subst h
    refine ⟨rfl, rfl, le_refl _, fun i e hi he => ?_⟩
    dsimp only at he
    split at he
    · omega
    · cases he

/-! ## Payloads -/

/-- The entries of a payload are those of the journal. -/
theorem RaftReplicaTracker.buildLoop_some {journal : RaftJournal} {snapshotTerm index : Int}
    {n : Nat} {entries : List RaftEntry}
    (h : buildLoop journal snapshotTerm index n = some entries) :
    ∀ (k : Nat) e, entries[k]? = some e → journal.db.entries (index + k) = some e := by
  induction n generalizing index entries with
  | zero =>
    cases h
    intro k e he
    simp at he
  | succ n ih =>
    unfold buildLoop at h
    split at h
    · cases h
    · rename_i entry hf
      split at h
      · cases h
      · obtain ⟨rest, hrest, rfl⟩ := Option.map_eq_some_iff.mp h
        intro k e he
        cases k with
        | zero =>
          cases he
          simpa [RaftJournal.fetch] using hf
        | succ k =>
          have hk := ih hrest k e (by simpa using he)
          have hi : index + 1 + (k : Int) = index + ((k + 1 : Nat) : Int) := by omega
          rw [← hi]
          exact hk

theorem RaftReplicaTracker.sendPayload_some {s : RaftState}
    {snapshotTerm nextIndex payloadLimit lastTerm : Int} {req : RaftAppendEntriesRequest}
    (h : sendPayload s snapshotTerm nextIndex payloadLimit = some (req, lastTerm)) :
    req.prevIndex = nextIndex - 1 ∧
    (∃ previous, s.journal.db.entries (nextIndex - 1) = some previous ∧
      previous.term = req.prevTerm) ∧
    ∀ (k : Nat) e, req.entries[k]? = some e → s.journal.db.entries (nextIndex + k) = some e := by
  unfold sendPayload at h
  split at h
  · cases h
  · rename_i previous hprev
    split at h
    · cases h
    · obtain ⟨⟨entries, last⟩, hb, he⟩ := Option.map_eq_some_iff.mp h
      cases he
      obtain ⟨entries', hl, he⟩ := Option.map_eq_some_iff.mp hb
      cases he
      exact ⟨rfl, ⟨previous, hprev, rfl⟩, buildLoop_some hl⟩

/-! ## Votes of a round -/

namespace RaftElection

/-- The vote of one node when the round ends. -/
def voteOf (el : RaftElection) (srv : RaftServer) : SingleVote :=
  match el.votes.lookup srv with
  | some resp => .vote resp
  | none => .netError

/-- The nodes that granted their vote. -/
def supporters (el : RaftElection) : List RaftServer :=
  el.contacted.filter fun srv => (el.voteOf srv).grants

theorem length_contents (el : RaftElection) : el.contents.length = el.contacted.length :=
  List.length_map _

theorem granted_contents (el : RaftElection) :
    RaftVoteRegistry.granted el.contents = el.supporters.length := by
  show (el.contacted.map el.voteOf).countP SingleVote.grants = _
  rw [List.countP_map, List.countP_eq_length_filter]
  rfl

theorem mem_supporters (el : RaftElection) {srv : RaftServer} (h : srv ∈ el.supporters) :
    ∃ resp, (srv, resp) ∈ el.votes ∧ resp.vote = .GRANTED := by
  have hg := (List.mem_filter.mp h).2
  unfold voteOf at hg
  cases hl : el.votes.lookup srv with
  | none => simp [hl, SingleVote.grants] at hg
  | some resp =>
    obtain ⟨before, after, hv, -⟩ := List.lookup_eq_some_iff.mp hl
    exact ⟨resp, by rw [hv]; simp, by simpa [hl, SingleVote.grants] using hg⟩

end RaftElection

/-- Who is left when all of one name are gone. -/
theorem count_add_length_others (nodes : List RaftServer) (n : RaftServer) :
    nodes.count n + (nodes.filter fun s => s ≠ n).length = nodes.length := by
  induction nodes with
  | nil => rfl
  | cons s rest ih =>
    by_cases hs : s = n
    · subst hs
      simp only [List.count_cons_self, List.filter_cons, ne_eq, not_true_eq_false, decide_false,
        Bool.false_eq_true, if_false, List.length_cons] at ih ⊢
      omega
    · simp only [List.count_cons_of_ne hs, List.filter_cons, ne_eq, hs, not_false_eq_true,
        decide_true, if_true, List.length_cons] at ih ⊢
      omega

/-! ## Nodes -/

namespace Cluster

/-- What holds of every node and message while the members stay as they are. -/
structure Steady (members : RaftMembers) (base : Int) (c : Cluster) : Prop where
  sound : ∀ n, RaftState.Sound (c.node n).state
  myself : ∀ n, (c.node n).state.myself = n
  active : ∀ n, (c.node n).state.status ≠ .FOLLOWER → n ∈ members.nodes
  fixed : ∀ n, FixedMembers members base (c.node n).state.journal
  requests : ∀ m ∈ c.appendRequests, ∀ e ∈ m.2.entries,
    RaftJournal.isMembersUpdate e.request = false

variable {members : RaftMembers} {base : Int} {c c' : Cluster}

theorem Steady.running (h : Steady members base c)
    (hnamed : ∀ s ∈ members.nodes, s.empty = false) : Running c := by
  refine ⟨h.sound, fun n => ?_, h.myself⟩
  by_cases hf : (c.node n).state.status = .FOLLOWER
  · exact .inl hf
  · exact .inr (by rw [h.myself]; exact hnamed n (h.active n hf))

/-- A new entry of a node in its own term. -/
theorem kept_withEntry {s : RaftState} (h : RaftState.Sound s) {entry : RaftEntry}
    (ht : entry.term = s.term) (hl : s.journal.termOfLastEntry ≤ entry.term) :
    RaftState.Sound { s with journal := s.journal.withEntry entry } ∧
      Later s { s with journal := s.journal.withEntry entry } := by
  have hg := RaftJournal.good_withEntry h.journal_good (by rw [h.term_eq, ht]) hl
  have hk := RaftDispatcher.kept_journal h hg ⟨rfl, rfl⟩
  exact ⟨hk.sound, hk.later⟩

/-- The node that takes its turn stays sound, and is later than it was. -/
theorem Turn.kept {n : RaftServer} {node : RaftNode} (h : Turn c c' n node)
    (hs : RaftState.Sound (c.node n).state) :
    RaftState.Sound node.state ∧ Later (c.node n).state node.state := by
  cases h with
  | calm hc => exact ⟨hc.calm.sound, hc.calm.later⟩
  | candidacy hc => exact ⟨hc.candidacy.kept.sound, hc.candidacy.kept.later⟩
  | ascent _ hc _ has => exact ⟨has.sound, hc.later.trans has.later⟩
  | append hl ht hm hfits hn =>
    rw [hn]
    exact kept_withEntry hs ht hfits
  | receive _ hc _ _ _ hn =>
    rw [hn]
    obtain ⟨hg, hv⟩ := RaftDispatcher.good_receiveEntries hc.quiet.calm.sound.journal_good _ _
    have hk := RaftDispatcher.kept_journal hc.quiet.calm.sound hg hv
    exact ⟨hk.sound, hc.quiet.calm.later.trans hk.later⟩

/-- In the cluster after a turn, the other nodes are as they were. -/
theorem forall_setNode {n : RaftServer} {node : RaftNode} {P : RaftServer → RaftNode → Prop}
    (hn : c'.node = (c.setNode n node).node) (hnode : P n node)
    (hother : ∀ m, P m (c.node m)) (m : RaftServer) : P m (c'.node m) := by
  have hm : c'.node m = if m = n then node else c.node m := by rw [hn]; rfl
  rw [hm]
  split
  · rename_i hmn
    rw [hmn]
    exact hnode
  · exact hother m

theorem Turn.status {n : RaftServer} {node : RaftNode} (h : Turn c c' n node)
    (hst : Steady members base c) : node.state.status ≠ .FOLLOWER → n ∈ members.nodes := by
  intro hs
  have hactive := hst.active n
  cases h with
  | calm hc => exact hactive fun hf => hs (hc.calm.follows hf)
  | candidacy hc =>
    have hm := hc.candidacy.member
    unfold RaftState.getNodes at hm
    rw [(hst.fixed n).members_eq, hst.myself] at hm
    exact hm
  | ascent _ hc _ has =>
    refine hactive fun hf => ?_
    have hst0 := has.was_candidate
    rw [hc.follows hf] at hst0
    cases hst0
  | append hl => exact hactive (by rw [hl]; decide)
  | receive _ hc _ _ _ hn =>
    refine hactive fun hf => hs ?_
    rw [hn]
    exact hc.quiet.calm.follows hf

theorem Turn.fixed {n : RaftServer} {node : RaftNode} (h : Turn c c' n node)
    (hst : Steady members base c) : FixedMembers members base node.state.journal := by
  have hf := hst.fixed n
  cases h with
  | calm hc => exact hf.trims hc.calm.journal
  | candidacy hc => exact hf.trims hc.candidacy.journal
  | ascent _ hc _ has =>
    rw [has.journal]
    exact (hf.trims hc.journal).withEntry rfl
  | append _ _ hm _ hn =>
    rw [hn]
    exact hf.withEntry hm
  | receive hm hc _ _ _ hn =>
    rw [hn]
    exact (hf.trims hc.quiet.calm.journal).receive hc.quiet.calm.sound.journal_good _
      fun e he => hst.requests _ hm e he

theorem Turn.requests {n : RaftServer} {node : RaftNode} (h : Turn c c' n node)
    (hst : Steady members base c) : ∀ m ∈ c'.appendRequests, ∀ e ∈ m.2.entries,
      RaftJournal.isMembersUpdate e.request = false := by
  intro m hm e he
  cases h with
  | calm _ _ _ ha =>
    rcases ha m hm with hm | ⟨_, nextIndex, _, _, hp⟩
    · exact hst.requests m hm e he
    · obtain ⟨-, ⟨previous, hprev, -⟩, hall⟩ := RaftReplicaTracker.sendPayload_some hp
      obtain ⟨k, hk⟩ := List.getElem?_of_mem he
      have hbase := (hst.fixed n).base_le
      have hstored := ((hst.sound n).journal_good.stored (nextIndex - 1)).mp (by rw [hprev]; rfl)
      exact (hst.fixed n).plain _ e (by omega) (hall k e hk)
  | candidacy _ _ _ ha => exact hst.requests m (by rwa [ha] at hm) e he
  | ascent _ _ _ _ _ _ ha => exact hst.requests m (by rwa [ha] at hm) e he
  | append _ _ _ _ _ _ ha => exact hst.requests m (by rwa [ha] at hm) e he
  | receive _ _ _ _ _ _ _ ha => exact hst.requests m (by rwa [ha] at hm) e he

theorem Steady.turn (h : Steady members base c) {n : RaftServer} {node : RaftNode}
    (hn : c'.node = (c.setNode n node).node) (ht : Turn c c' n node) :
    Steady members base c' := by
  obtain ⟨hs, hl⟩ := ht.kept (h.sound n)
  exact ⟨forall_setNode (P := fun _ node => RaftState.Sound node.state) hn hs h.sound,
    forall_setNode (P := fun m node => node.state.myself = m) hn (hl.myself.trans (h.myself n))
      h.myself,
    forall_setNode (P := fun m node => node.state.status ≠ .FOLLOWER → m ∈ members.nodes) hn
      (ht.status h) h.active,
    forall_setNode (P := fun _ node => FixedMembers members base node.state.journal) hn
      (ht.fixed h) h.fixed,
    ht.requests h⟩

theorem steady_created {clusterID : RaftClusterID} {nodes : List RaftServer} {startIndex : Int}
    {journal : RaftJournal} (h0 : 0 ≤ startIndex)
    (hnew : RaftJournal.obliterate clusterID nodes startIndex = .ok journal) :
    Steady journal.members startIndex (created journal) := by
  refine ⟨fun n => RaftState.sound_ofJournal (RaftJournal.good_obliterate h0 hnew) n, fun _ => rfl,
    fun n hn => absurd rfl hn, fun _ => fixedMembers_obliterate hnew, fun m hm => ?_⟩
  cases hm

/-- The others are later than they were, too. -/
theorem later_of_turn (h : ∀ m, RaftState.Sound (c.node m).state) {n : RaftServer} {node : RaftNode}
    (hn : c'.node = (c.setNode n node).node) (ht : Turn c c' n node) (m : RaftServer) :
    Later (c.node m).state (c'.node m).state :=
  forall_setNode (P := fun m node => Later (c.node m).state node.state) hn (ht.kept (h n)).2
    (fun _ => RaftState.later_self _) m

/-! ## Ballots -/

/-- The vote that a node holds in its term. -/
def Holds (c : Cluster) (v : RaftServer) (T : Int) (a : RaftServer) : Prop :=
  (c.node v).state.term = T ∧ (c.node v).state.votedFor = a ∧ a.empty = false

/-- The votes so far, with those that the nodes hold now. -/
def cast (V : RaftServer → Int → RaftServer → Prop) (c : Cluster) :
    RaftServer → Int → RaftServer → Prop :=
  fun v T a => V v T a ∨ c.Holds v T a

/-- The votes that were ever given, as far as the nodes remember. -/
structure Polled (V : RaftServer → Int → RaftServer → Prop) (c : Cluster) : Prop where
  once : Ballots.Once V
  known : ∀ v T a, V v T a →
    T ≤ (c.node v).state.term ∧ (T = (c.node v).state.term → c.Holds v T a)
  current : ∀ v T a, c.Holds v T a → V v T a

variable {V : RaftServer → Int → RaftServer → Prop}

theorem Holds.unique {v a b : RaftServer} {T : Int} (ha : c.Holds v T a) (hb : c.Holds v T b) :
    a = b := ha.2.1.symm.trans hb.2.1

/-- A vote is not forgotten while the term lasts. -/
theorem known_cast (h : Polled V c) (hl : ∀ m, Later (c.node m).state (c'.node m).state)
    {v a : RaftServer} {T : Int} (hv : cast V c' v T a) :
    T ≤ (c'.node v).state.term ∧ (T = (c'.node v).state.term → c'.Holds v T a) := by
  rcases hv with hv | hv
  · obtain ⟨hle, hheld⟩ := h.known v T a hv
    have hterm := (hl v).term
    refine ⟨le_trans hle hterm, fun ht => ?_⟩
    obtain ⟨h1, h2, h3⟩ := hheld (by omega)
    exact ⟨ht.symm, ((hl v).vote (by omega) (by rw [h2]; exact h3)).trans h2, h3⟩
  · exact ⟨le_of_eq hv.1.symm, fun _ => hv⟩

theorem Polled.cast (h : Polled V c) (hl : ∀ m, Later (c.node m).state (c'.node m).state) :
    Polled (cast V c') c' := by
  refine ⟨fun v T a b ha hb => ?_, fun v T a hv => known_cast h hl hv, fun v T a hv => .inr hv⟩
  by_cases ht : T = (c'.node v).state.term
  · exact ((known_cast h hl ha).2 ht).unique ((known_cast h hl hb).2 ht)
  · have hold : ∀ a, Cluster.cast V c' v T a → V v T a := by
      rintro a (hv | hv)
      · exact hv
      · exact absurd hv.1.symm ht
    exact h.once v T a b (hold a ha) (hold b hb)

/-- The round of a candidate: the votes that came in for it were given. -/
structure Round (V : RaftServer → Int → RaftServer → Prop) (nodes : List RaftServer)
    (n : RaftServer) (el : RaftElection) : Prop where
  candidate : el.req.candidate = n
  member : n ∈ nodes
  contacted : el.contacted = nodes.filter fun s => s ≠ n
  own : V n el.req.term n
  votes : ∀ p ∈ el.votes, p.2.vote = .GRANTED → V p.1 el.req.term n

/-- What the election rounds, the replies and the leaders rest on. -/
structure Backed (V : RaftServer → Int → RaftServer → Prop) (nodes : List RaftServer)
    (c : Cluster) : Prop where
  rounds : ∀ n el, (c.node n).election = some el → Round V nodes n el
  replies : ∀ m ∈ c.voteReplies, m.2.2.vote = .GRANTED → m.2.1.candidate.empty = false →
    V m.1 m.2.1.term m.2.1.candidate
  leaders : ∀ n, (c.node n).state.status = .LEADER →
    Ballots.Elected V nodes (c.node n).state.term n

theorem Round.mono {V' : RaftServer → Int → RaftServer → Prop} {nodes : List RaftServer}
    {n : RaftServer} {el : RaftElection} (h : Round V nodes n el)
    (hV : ∀ v T a, V v T a → V' v T a) : Round V' nodes n el :=
  ⟨h.candidate, h.member, h.contacted, hV _ _ _ h.own, fun p hp hg => hV _ _ _ (h.votes p hp hg)⟩

/-- A round that is won has a majority of the nodes, the candidate included. -/
theorem Round.elected {nodes : List RaftServer} {n : RaftServer} {el : RaftElection}
    (h : Round V nodes n el) (hnd : nodes.Nodup)
    (hout : RaftVoteRegistry.determineOutcome false el.contents = .kElected) :
    Ballots.Elected V nodes el.req.term n := by
  obtain ⟨hmaj, -⟩ := (RaftVoteRegistry.determineOutcome_kElected el.contents).mp hout
  rw [el.granted_contents, el.length_contents] at hmaj
  have hother : el.contacted.length + 1 = nodes.length := by
    have hone := List.count_eq_one_of_mem hnd h.member
    have hne := count_add_length_others nodes n
    rw [h.contacted]
    omega
  have hsub : el.contacted ⊆ nodes := by
    rw [h.contacted]
    exact List.filter_subset_self _
  have hself : n ∉ el.supporters := by
    intro hmem
    have hmem := List.mem_of_mem_filter hmem
    rw [h.contacted] at hmem
    simp at hmem
  have hsnd : el.supporters.Nodup := by
    refine List.Nodup.filter _ ?_
    rw [h.contacted]
    exact hnd.filter _
  refine ⟨n :: el.supporters, List.nodup_cons.mpr ⟨hself, hsnd⟩, ?_, ?_, fun v hv => ?_⟩
  · exact List.cons_subset.mpr ⟨h.member, List.Subset.trans (List.filter_subset_self _) hsub⟩
  · rw [List.length_cons]
    omega
  · rcases List.mem_cons.mp hv with rfl | hv
    · exact h.own
    · obtain ⟨resp, hmem, hg⟩ := el.mem_supporters hv
      exact h.votes (v, resp) hmem hg

section

variable {n : RaftServer} {node : RaftNode}

theorem Turn.rounds (ht : Turn c c' n node) (hn : c'.node = (c.setNode n node).node)
    (hnamed : ∀ s ∈ members.nodes, s.empty = false) (hst : Steady members base c)
    (hb : Backed V members.nodes c) :
    ∀ el, node.election = some el → Round (cast V c') members.nodes n el := by
  intro el hel
  have hold : ∀ el, (c.node n).election = some el → Round (cast V c') members.nodes n el :=
    fun el hel => (hb.rounds n el hel).mono fun _ _ _ => .inl
  have hnode : c'.node n = node := by rw [hn]; exact if_pos rfl
  cases ht with
  | calm _ he =>
    obtain ⟨el0, hel0, hreq, hcont, hvotes⟩ := he el hel
    have hr := hb.rounds n el0 hel0
    refine ⟨by rw [hreq]; exact hr.candidate, hr.member, hcont.trans hr.contacted,
      by rw [hreq]; exact .inl hr.own, fun p hp hg => ?_⟩
    rw [hreq]
    rcases hvotes p hp with hp | hp
    · exact .inl (hr.votes p hp hg)
    · have hcand : el0.req.candidate.empty = false := by
        rw [hr.candidate]
        exact hnamed n hr.member
      have hv := hb.replies _ hp hg hcand
      rw [hr.candidate] at hv
      exact .inl hv
  | @candidacy req hc he =>
    rw [he] at hel
    cases hel
    have hmem : n ∈ members.nodes := by
      have hm := hc.candidacy.member
      unfold RaftState.getNodes at hm
      rw [(hst.fixed n).members_eq, hst.myself] at hm
      exact hm
    have hnodes : node.state.getNodes = members.nodes := by
      unfold RaftState.getNodes
      rw [((hst.fixed n).trims hc.candidacy.journal).members_eq]
    refine ⟨hc.candidacy.candidate.trans (hst.myself n), hmem, by rw [hnodes], .inr ⟨?_, ?_, hnamed n hmem⟩,
      fun p hp => absurd hp List.not_mem_nil⟩
    · rw [hnode]
      exact hc.candidacy.term
    · rw [hnode]
      exact hc.candidacy.vote.trans (hst.myself n)
  | ascent _ _ _ _ hnone =>
    rw [hnone] at hel
    cases hel
  | append _ _ _ _ hn' =>
    rw [hn'] at hel
    exact hold el hel
  | receive _ _ _ _ _ hn' =>
    rw [hn'] at hel
    exact hold el hel

theorem Turn.replies (ht : Turn c c' n node) (hn : c'.node = (c.setNode n node).node)
    {nodes : List RaftServer} (hb : Backed V nodes c) :
    ∀ m ∈ c'.voteReplies, m.2.2.vote = .GRANTED → m.2.1.candidate.empty = false →
      cast V c' m.1 m.2.1.term m.2.1.candidate := by
  intro m hm hg he
  have hnode : c'.node n = node := by rw [hn]; exact if_pos rfl
  have hold : m ∈ c.voteReplies → cast V c' m.1 m.2.1.term m.2.1.candidate :=
    fun hm => .inl (hb.replies m hm hg he)
  cases ht with
  | calm _ _ hv =>
    rcases hv m hm with hm | ⟨h1, h2⟩
    · exact hold hm
    · obtain ⟨h3, h4⟩ := h2 hg
      refine .inr ⟨?_, ?_, he⟩
      · rw [h1, hnode]
        exact h3
      · rw [h1, hnode]
        exact h4
  | candidacy _ _ hv => exact hold (by rwa [hv] at hm)
  | ascent _ _ _ _ _ hv => exact hold (by rwa [hv] at hm)
  | append _ _ _ _ _ hv => exact hold (by rwa [hv] at hm)
  | receive _ _ _ _ _ _ hv => exact hold (by rwa [hv] at hm)

/-- A node leads a term after its turn if it led it before, or has just won it. -/
theorem Turn.leads (ht : Turn c c' n node) {nodes : List RaftServer} (hnd : nodes.Nodup)
    (hb : Backed V nodes c) (hl : node.state.status = .LEADER) :
    Ballots.Elected V nodes node.state.term n := by
  cases ht with
  | calm hc =>
    obtain ⟨h1, h2⟩ := hc.calm.leads hl
    rw [h2]
    exact hb.leaders n h1
  | candidacy hc =>
    rw [hc.candidacy.status] at hl
    cases hl
  | ascent he _ hout has =>
    rw [has.term_eq, has.in_term]
    exact (hb.rounds n _ he).elected hnd hout
  | append _ _ _ _ hn' =>
    rw [hn'] at hl ⊢
    exact hb.leaders n hl
  | @receive s0 _ _ _ hc _ hlead hne hn' =>
    -- A leader recognizes itself, and it did not send this to itself.
    rw [hn'] at hl
    have hl : s0.status = .LEADER := hl
    exact absurd (hlead.symm.trans (hc.quiet.calm.sound.leader_self hl)) hne

theorem Backed.turn (hb : Backed V members.nodes c) (hst : Steady members base c)
    (hnd : members.nodes.Nodup) (hnamed : ∀ s ∈ members.nodes, s.empty = false)
    (hn : c'.node = (c.setNode n node).node) (ht : Turn c c' n node) :
    Backed (cast V c') members.nodes c' := by
  refine ⟨?_, ht.replies hn hb, ?_⟩
  · exact forall_setNode
      (P := fun m node => ∀ el, node.election = some el → Round (cast V c') members.nodes m el)
      hn (ht.rounds hn hnamed hst hb)
      fun m el hel => (hb.rounds m el hel).mono fun _ _ _ => .inl
  · exact forall_setNode
      (P := fun m node => node.state.status = .LEADER →
        Ballots.Elected (cast V c') members.nodes node.state.term m)
      hn (fun hl => (ht.leads hnd hb hl).mono fun _ _ _ => .inl)
      fun m hl => (hb.leaders m hl).mono fun _ _ _ => .inl

end

/-! ## Runs -/

/-- What holds in every state of a run, with the votes that were given in it. -/
structure Elections (V : RaftServer → Int → RaftServer → Prop) (members : RaftMembers)
    (base : Int) (c : Cluster) : Prop where
  nodup : members.nodes.Nodup
  named : ∀ s ∈ members.nodes, s.empty = false
  steady : Steady members base c
  polled : Polled V c
  backed : Backed V members.nodes c

theorem Elections.step (h : Elections V members base c) {x : ClusterStep} (hx : x.KeepsMembers)
    (hs : c.step x = some c') : Elections (cast V c') members base c' := by
  obtain ⟨n, node, hn, ht, -⟩ := step_turn (h.steady.running h.named) hx hs
  exact ⟨h.nodup, h.named, h.steady.turn hn ht,
    h.polled.cast (later_of_turn h.steady.sound hn ht),
    h.backed.turn h.steady h.nodup h.named hn ht⟩

theorem Elections.run (h : Elections V members base c) {steps : List ClusterStep}
    (hx : ∀ x ∈ steps, x.KeepsMembers) (hr : c.runAll steps = some c') :
    ∃ V' : RaftServer → Int → RaftServer → Prop, (∀ v T a, V v T a → V' v T a) ∧
      Elections V' members base c' := by
  induction steps generalizing c V with
  | nil =>
    obtain rfl : c = c' := by simpa [runAll] using hr
    exact ⟨V, fun _ _ _ => id, h⟩
  | cons x xs ih =>
    obtain ⟨c1, h1, hr⟩ := Option.bind_eq_some_iff.mp hr
    obtain ⟨V', hsub, h'⟩ := ih (h.step (hx x (by simp)) h1) (fun y hy => hx y (by simp [hy])) hr
    exact ⟨V', fun v T a hv => hsub v T a (.inl hv), h'⟩

theorem elections_created {clusterID : RaftClusterID} {nodes : List RaftServer} {startIndex : Int}
    {journal : RaftJournal} (h0 : 0 ≤ startIndex)
    (hnew : RaftJournal.obliterate clusterID nodes startIndex = .ok journal)
    (hnamed : ∀ s ∈ journal.members.nodes, s.empty = false) :
    Elections (created journal).Holds journal.members startIndex (created journal) := by
  have hg := RaftJournal.good_obliterate h0 hnew
  refine ⟨(RaftMembers.parse_some hg.mirrored.members).2.1, hnamed, steady_created h0 hnew,
    ⟨fun v T a b ha hb => ha.unique hb, fun v T a hv => ⟨le_of_eq hv.1.symm, fun _ => hv⟩,
      fun v T a => id⟩, ⟨?_, ?_, ?_⟩⟩
  · intro n el hel
    cases hel
  · intro m hm
    cases hm
  · intro n hl
    cases hl

/-- In every run with fixed members, of which each has a name, two nodes that are leaders
of one term, at any two points of the run, are the same. -/
theorem a_term_has_one_leader {clusterID : RaftClusterID} {nodes : List RaftServer}
    {startIndex : Int} {journal : RaftJournal} (h0 : 0 ≤ startIndex)
    (hnew : RaftJournal.obliterate clusterID nodes startIndex = .ok journal)
    (hnamed : ∀ s ∈ journal.members.nodes, s.empty = false)
    {steps more : List ClusterStep} {c c' : Cluster}
    (hsteps : ∀ x ∈ steps, x.KeepsMembers) (hmore : ∀ x ∈ more, x.KeepsMembers)
    (hc : (created journal).runAll steps = some c) (hc' : c.runAll more = some c')
    {n m : RaftServer} (hn : (c.node n).state.status = .LEADER)
    (hm : (c'.node m).state.status = .LEADER)
    (ht : (c.node n).state.term = (c'.node m).state.term) : n = m := by
  obtain ⟨V, -, h⟩ := (elections_created h0 hnew hnamed).run hsteps hc
  obtain ⟨V', hsub, h'⟩ := h.run hmore hc'
  have hwon := (h.backed.leaders n hn).mono hsub
  rw [ht] at hwon
  exact Ballots.elected_unique h'.polled.once hwon (h'.backed.leaders m hm)

/-- Three nodes: the first is elected in term 1, and stays the only leader of it when the
second is elected in term 2 by the third. -/
theorem a_deposed_leader_was_the_only_one :
    ∃ new c c', RaftJournal.obliterate (ascii "id")
        [⟨ascii "s1", 7776⟩, ⟨ascii "s2", 7776⟩, ⟨ascii "s3", 7776⟩] 0 = .ok new ∧
      (created new).runAll [.runForLeader ⟨ascii "s1", 7776⟩, .requestVote 0,
        .registerVote ⟨ascii "s1", 7776⟩ 0, .concludeElection ⟨ascii "s1", 7776⟩] = some c ∧
      c.runAll [.runForLeader ⟨ascii "s2", 7776⟩, .requestVote 3,
        .registerVote ⟨ascii "s2", 7776⟩ 1, .concludeElection ⟨ascii "s2", 7776⟩] = some c' ∧
      (c'.node ⟨ascii "s2", 7776⟩).state.status = .LEADER ∧
      ∀ m, (c'.node m).state.status = .LEADER → (c'.node m).state.term = 1 →
        m = ⟨ascii "s1", 7776⟩ := by
  obtain ⟨new, c, c', hnew, hc, hc', hnodes, hl, ht, hl'⟩ :
      ∃ new c c', RaftJournal.obliterate (ascii "id")
        [⟨ascii "s1", 7776⟩, ⟨ascii "s2", 7776⟩, ⟨ascii "s3", 7776⟩] 0 = .ok new ∧
      (created new).runAll [.runForLeader ⟨ascii "s1", 7776⟩, .requestVote 0,
        .registerVote ⟨ascii "s1", 7776⟩ 0, .concludeElection ⟨ascii "s1", 7776⟩] = some c ∧
      c.runAll [.runForLeader ⟨ascii "s2", 7776⟩, .requestVote 3,
        .registerVote ⟨ascii "s2", 7776⟩ 1, .concludeElection ⟨ascii "s2", 7776⟩] = some c' ∧
      new.members.nodes = [⟨ascii "s1", 7776⟩, ⟨ascii "s2", 7776⟩, ⟨ascii "s3", 7776⟩] ∧
      (c.node ⟨ascii "s1", 7776⟩).state.status = .LEADER ∧
      (c.node ⟨ascii "s1", 7776⟩).state.term = 1 ∧
      (c'.node ⟨ascii "s2", 7776⟩).state.status = .LEADER :=
    ⟨_, _, _, rfl, rfl, rfl, rfl, rfl, rfl, rfl⟩
  refine ⟨new, c, c', hnew, hc, hc', hl', fun m hm hterm => ?_⟩
  have hnamed : ∀ s ∈ new.members.nodes, s.empty = false := by
    rw [hnodes]
    decide
  exact (a_term_has_one_leader (le_refl 0) hnew hnamed (by simp [ClusterStep.KeepsMembers])
    (by simp [ClusterStep.KeepsMembers]) hc hc' hl hm (ht.trans hterm.symm)).symm

end Cluster

end quarkdb
