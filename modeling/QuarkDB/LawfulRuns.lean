-- What every run of a cluster with fixed members remembers: the entries that leaders made, the
-- votes, where candidates stood and what nodes held. It obeys the laws from which it follows
-- that what was chosen stays.
import QuarkDB.Ancestry
import QuarkDB.LogMatching

namespace quarkdb

open RaftJournal (Good)
open RaftState (Later)
open Chains (Made Over Path)

/-! ## Places in a journal -/

section

variable {L : Int → Int → RaftEntry → Prop} {base : Int} {j : RaftJournal}

/-- The last entry is the one at the base, or one of the ledger. -/
theorem Recorded.last (h : Recorded L base j) (hg : Good j) (hb : base ≤ j.logStart)
    {first : RaftEntry} (hfirst : ∀ e, j.db.entries base = some e → e = first) :
    (j.logSize - 1 = base ∧ j.termOfLastEntry = first.term) ∨
      Made RaftEntry.term L (j.logSize - 1) j.termOfLastEntry := by
  obtain ⟨e, he, ht⟩ := hg.last
  have h1 := hg.start_le_commit
  have h2 := hg.commit_lt_size
  by_cases hbase : j.logSize - 1 = base
  · rw [hbase] at he
    rw [hfirst e he] at ht
    exact .inl ⟨hbase, ht.symm⟩
  · obtain ⟨p, hp, -⟩ := h _ e (by omega) he
    exact .inr ⟨p, e, hp, ht⟩

/-- Each entry lies below the last one. -/
theorem Recorded.over_last (h : Recorded L base j) (hg : Good j) (hb : base ≤ j.logStart)
    {i : Int} {e : RaftEntry} (he : j.db.entries i = some e) :
    Over RaftEntry.term L (j.logSize - 1) j.termOfLastEntry i e.term := by
  obtain ⟨l, hl, ht⟩ := hg.last
  have hs := (hg.stored i).mp (by rw [he]; rfl)
  rw [← ht]
  exact h.over (dense_entries hg) hl he (by omega) (by omega)

/-- A place below the last one is that of the entry that is stored there. -/
theorem Recorded.entry_of_over (hL : Chains.Single RaftEntry.term L) (h : Recorded L base j)
    (hg : Good j) (hb : base ≤ j.logStart) {i u : Int} (hi : j.logStart ≤ i)
    (ho : Over RaftEntry.term L (j.logSize - 1) j.termOfLastEntry i u) :
    ∃ e, j.db.entries i = some e ∧ e.term = u := by
  have hle := ho.le
  obtain ⟨e, he⟩ := Option.isSome_iff_exists.mp ((hg.stored i).mpr ⟨hi, by omega⟩)
  exact ⟨e, he, (h.over_last hg hb he).unique hL ho⟩

end

/-! ## Requests of a leader -/

namespace RaftReplicaTracker

theorem buildLoop_length {journal : RaftJournal} {snapshotTerm index : Int} {n : Nat}
    {entries : List RaftEntry} (h : buildLoop journal snapshotTerm index n = some entries) :
    entries.length = n := by
  induction n generalizing index entries with
  | zero =>
    cases h
    rfl
  | succ n ih =>
    unfold buildLoop at h
    split at h
    · cases h
    split at h
    · cases h
    · obtain ⟨rest, hrest, rfl⟩ := Option.map_eq_some_iff.mp h
      rw [List.length_cons, ih hrest]

/-- What a payload says of its sender, and how much it carries. -/
theorem sendPayload_header {s : RaftState} {snapshotTerm nextIndex payloadLimit lastTerm : Int}
    {req : RaftAppendEntriesRequest}
    (h : sendPayload s snapshotTerm nextIndex payloadLimit = some (req, lastTerm)) :
    req.term = snapshotTerm ∧ req.leader = s.myself ∧ req.commitIndex = s.journal.commitIndex ∧
      req.entries.length = (min payloadLimit (s.journal.logSize - nextIndex)).toNat ∧
      lastTerm = (req.entries.getLast?.map RaftEntry.term).getD (-1) := by
  unfold sendPayload at h
  split at h
  · cases h
  split at h
  · cases h
  · obtain ⟨⟨entries, last⟩, hb, he⟩ := Option.map_eq_some_iff.mp h
    cases he
    obtain ⟨entries', hl, he⟩ := Option.map_eq_some_iff.mp hb
    cases he
    exact ⟨rfl, rfl, rfl, buildLoop_length hl, rfl⟩

end RaftReplicaTracker

/-- The request lies below an entry of its term. -/
structure OnPath (L : Int → Int → RaftEntry → Prop) (req : RaftAppendEntriesRequest) : Prop where
  prev : Path RaftEntry.term L req.term req.prevIndex req.prevTerm
  entries : ∀ (k : Nat) e, req.entries[k]? = some e →
    Path RaftEntry.term L req.term (req.prevIndex + 1 + k) e.term

theorem OnPath.mono {L L' : Int → Int → RaftEntry → Prop} {req : RaftAppendEntriesRequest}
    (h : OnPath L req) (hL : ∀ i p e, L i p e → L' i p e) : OnPath L' req :=
  ⟨h.prev.mono hL, fun k e he => (h.entries k e he).mono hL⟩

section

variable {L : Int → Int → RaftEntry → Prop} {base : Int} {j : RaftJournal}

/-- A log that was overwritten ends below the leader: it lost nothing that lies below the
leader, and nothing that is committed. -/
theorem overwrite_joins (hL : Chains.Single RaftEntry.term L)
    (hu : Chains.Unbroken RaftEntry.term L) (h : Recorded L base j) (hg : Good j) (hb : base ≤ j.logStart)
    {req : RaftAppendEntriesRequest} (hreq : OnPath L req)
    (hseg : Chains.Segment RaftEntry.term L (req.prevIndex + 1) req.prevTerm req.entries)
    {first : Int} {j1 j2 : RaftJournal} {k : Nat}
    (hm : j.matchEntries req.prevIndex req.prevTerm = true)
    (hf : j.compareEntries (req.prevIndex + 1) req.entries = .ok first)
    (hlt : first < req.prevIndex + 1 + req.entries.length) (hcut : RaftDispatcher.Cut j first j1)
    (happ : RaftDispatcher.Appended j1
      ((req.entries.drop (first - (req.prevIndex + 1)).toNat).take k) j2) :
    Path RaftEntry.term L req.term (j2.logSize - 1) j2.termOfLastEntry ∧
      (∀ m u, Over RaftEntry.term L (j.logSize - 1) j.termOfLastEntry m u →
        Path RaftEntry.term L req.term m u → m < j2.logSize) ∧
      ∀ i e, i ≤ j.commitIndex → j2.db.entries i = some e → j.db.entries i = some e := by
  obtain ⟨hp1, hp2, prev, hprev, hpt⟩ := RaftDispatcher.matchEntries_true hg hm
  obtain ⟨first', hf', c1, c2, c3, c4, c5⟩ :=
    RaftDispatcher.compareEntries_spec hg req.entries hp1 hp2
  rw [hf] at hf'
  cases hf'
  obtain ⟨g1, g2, g3, g4, -, -⟩ := hcut.cutOff hg
  have hx := happ.extends g1
  have hsize : first ≤ j2.logSize := by
    rw [hx.size_eq, g2]
    omega
  -- From the entry before on, the log has what the request has.
  have hplace : ∀ i e, req.prevIndex ≤ i → j2.db.entries i = some e →
      Path RaftEntry.term L req.term i e.term := by
    intro i e hi he
    rw [hx.entries_eq, g2] at he
    by_cases hfi : first ≤ i
    · rw [if_pos hfi, List.getElem?_take] at he
      split at he
      · rw [List.getElem?_drop] at he
        have hpath := hreq.entries _ e he
        have hidx : req.prevIndex + 1 +
            (((first - (req.prevIndex + 1)).toNat + (i - first).toNat : Nat) : Int) = i := by omega
        rwa [hidx] at hpath
      · cases he
    · rw [if_neg hfi, g3, if_neg hfi] at he
      by_cases hip : i = req.prevIndex
      · rw [hip, hprev] at he
        cases he
        rw [hip, hpt]
        exact hreq.prev
      · rw [c4 i (by omega) (by omega)] at he
        have hpath := hreq.entries _ e he
        have hidx : req.prevIndex + 1 + ((i - (req.prevIndex + 1)).toNat : Int) = i := by omega
        rwa [hidx] at hpath
  refine ⟨?_, fun m u ho hpath => ?_, fun i e hi he => ?_⟩
  · obtain ⟨e, he, ht⟩ := hx.good.last
    rw [← ht]
    exact hplace _ e (by omega) he
  · -- Otherwise the first entry that differs is below one that does not.
    by_contra hge
    have hle := ho.le
    obtain ⟨e, he⟩ := Option.isSome_iff_exists.mp
      ((hg.stored first).mpr ⟨by omega, by omega⟩)
    have hover := ho.linear hL (h.over_last hg hb he) (by omega)
    obtain ⟨d, hd⟩ : ∃ d : Nat, first = req.prevIndex + 1 + d :=
      ⟨(first - (req.prevIndex + 1)).toNat, by omega⟩
    obtain ⟨f, hfd⟩ : ∃ f, req.entries[d]? = some f :=
      ⟨_, List.getElem?_eq_getElem (by omega)⟩
    have hterm : e.term = f.term := by
      have hpf := hreq.entries d f hfd
      rw [← hd] at hpf
      exact (hpath.below hover).unique hL hu hpf
    obtain ⟨p, hp, -⟩ := h first e (by omega) he
    obtain ⟨q, hseg', -, -⟩ := hseg.drop d
    rw [List.drop_eq_getElem?_toList_append, hfd, ← hd] at hseg'
    obtain ⟨-, rfl⟩ := hL first p q e f hp hseg'.1 hterm
    refine c5 (by omega) (by omega) ?_
    have hidx : (first - (req.prevIndex + 1)).toNat = d := by omega
    rw [hidx, hfd, he]
  · have hcom : j.commitIndex < first := by
      cases hcut with
      | nothing hfirst =>
        have hcs := hg.commit_lt_size
        omega
      | entries hcom => exact hcom
    rw [hx.entries_eq, if_neg (by omega), g3, if_neg (by omega)] at he
    exact he

/-- What comes in leaves the log as it ends, or overwrites it. -/
theorem receive_joins (hL : Chains.Single RaftEntry.term L) (hu : Chains.Unbroken RaftEntry.term L)
    (h : Recorded L base j) (hg : Good j) (hb : base ≤ j.logStart) (lastApplied : Int)
    {req : RaftAppendEntriesRequest} (hreq : OnPath L req)
    (hseg : Chains.Segment RaftEntry.term L (req.prevIndex + 1) req.prevTerm req.entries)
    {j' : RaftJournal} (hj' : ((RaftDispatcher.receiveEntries lastApplied req).on j).2 = j') :
    Trims j j' ∨
    Path RaftEntry.term L req.term (j'.logSize - 1) j'.termOfLastEntry ∧
      (∀ m u, Over RaftEntry.term L (j.logSize - 1) j.termOfLastEntry m u →
        Path RaftEntry.term L req.term m u → m < j'.logSize) ∧
      ∀ i e, i ≤ j.commitIndex → j'.db.entries i = some e → j.db.entries i = some e := by
  subst hj'
  obtain ⟨j2, hc, -, rfl | ⟨first, j1, k, hm, hf, hlt, hcut, happ⟩⟩ :=
    RaftDispatcher.receiveEntries_leaves hg lastApplied req
  · exact .inl hc.trims
  obtain ⟨h1, h2, h3⟩ := overwrite_joins hL hu h hg hb hreq hseg hm hf hlt hcut happ
  have hg2 : Good j2 := (happ.extends (hcut.cutOff hg).good).good
  refine .inr ⟨?_, fun m u ho hpath => ?_, fun i e hi he => h3 i e hi (hc.trims.entries i e he)⟩
  · rw [hc.trims.size_eq, hc.trims.last_eq hg2]
    exact h1
  · rw [hc.trims.size_eq]
    exact h2 m u ho hpath

end

/-! ## What is remembered -/

/-- The last term in which the node may have what its leader has: the one that it has not voted
in is still to come. -/
def RaftState.reached (s : RaftState) : Int := if s.votedFor.empty then s.term - 1 else s.term

theorem RaftState.reached_bounds (s : RaftState) : s.term - 1 ≤ s.reached ∧ s.reached ≤ s.term := by
  unfold reached
  split <;> omega

theorem RaftState.reached_of_voted {s : RaftState} (h : s.votedFor.empty = false) :
    s.reached = s.term := by
  unfold reached
  rw [h]
  rfl

theorem RaftState.Later.reached {s s' : RaftState} (h : Later s s') : s.reached ≤ s'.reached := by
  have h1 := s.reached_bounds
  have h2 := s'.reached_bounds
  have h3 := h.term
  by_cases ht : s'.term = s.term
  · cases hv : s.votedFor.empty with
    | false =>
      have hv' := hv
      rw [← h.vote ht hv] at hv'
      rw [RaftState.reached_of_voted hv']
      omega
    | true =>
      unfold RaftState.reached
      rw [hv]
      simp only [if_true]
      split <;> omega
  · omega

/-- The node asks for votes in its term, with the log that it has. -/
def RaftState.StandsAt (s : RaftState) (T ci cu : Int) : Prop :=
  s.status = .CANDIDATE ∧ s.leader.empty = true ∧ s.term = T ∧
    ci = s.journal.logSize - 1 ∧ cu = s.journal.termOfLastEntry

/-- The log of the node ends in an entry of its term, after the entry it was created with. -/
def RaftState.HoldsAt (s : RaftState) (floor T k : Int) : Prop :=
  s.term = T ∧ s.journal.termOfLastEntry = T ∧ k = s.journal.logSize - 1 ∧ floor < T

namespace Cluster

/-- What is remembered of a run. -/
structure Past where
  vote : RaftServer → Int → RaftServer → Prop
  led : Int → RaftServer → Prop
  made : Int → Int → RaftEntry → Prop
  stood : RaftServer → Int → Int → Int → Prop
  held : RaftServer → Int → Int → Prop

namespace Past

def history (P : Past) : History := ⟨P.led, P.made⟩

def record (P : Past) : Ballots.Record RaftServer RaftEntry := ⟨P.made, P.vote, P.stood, P.held⟩

/-- The past after a step, with the entries that were made by then. -/
def next (P : Past) (made : Int → Int → RaftEntry → Prop) (floor : Int) (c : Cluster) : Past where
  vote := cast P.vote c
  led := (P.history.next made c).led
  made := made
  stood a T ci cu := P.stood a T ci cu ∨ (c.node a).state.StandsAt T ci cu
  held v T k := P.held v T k ∨ (c.node v).state.HoldsAt floor T k

end Past

/-- What is remembered obeys the laws of leaders and voters, and says what the nodes and the
messages rest on. -/
structure Recalled (P : Past) (members : RaftMembers) (first : RaftEntry) (base : Int)
    (c : Cluster) : Prop where
  elections : Elections P.vote members base c
  written : Written P.vote P.history members.nodes first base c
  lawful : Ballots.Lawful RaftEntry.term members.nodes base first.term P.record
  unblocked : RaftServer.BLOCKED_VOTE ∉ members.nodes
  floor_le : ∀ n, first.term ≤ (c.node n).state.term
  tended : ∀ n, Tended (c.node n).state
  ended : ∀ n, (c.node n).state.status = .LEADER →
    base < (c.node n).state.journal.logSize - 1 ∧
      (c.node n).state.journal.termOfLastEntry = (c.node n).state.term
  stood_before : ∀ a T ci cu, P.stood a T ci cu →
    a ∈ members.nodes ∧ first.term < T ∧ T ≤ (c.node a).state.term
  stood_once : ∀ a T ci cu ci' cu', P.stood a T ci cu → P.stood a T ci' cu' → ci = ci' ∧ cu = cu'
  standing : ∀ n T ci cu, (c.node n).state.StandsAt T ci cu → P.stood n T ci cu
  asked : ∀ m ∈ c.voteRequests, P.stood m.2.candidate m.2.term m.2.lastIndex m.2.lastTerm
  backed : ∀ v T a, P.vote v T a → a ∈ members.nodes → ∃ ci cu, P.stood a T ci cu
  made_held : ∀ i p e, P.made i p e → ∃ a k, P.led e.term a ∧ i ≤ k ∧ P.held a e.term k
  held_made : ∀ v T k, P.held v T k →
    Made RaftEntry.term P.made k T ∧ T ≤ (c.node v).state.reached
  voted : ∀ v T k, (c.node v).state.HoldsAt first.term T k →
    (c.node v).state.votedFor.empty = false ∧ P.held v T k
  keeps : ∀ v, Ballots.Keeps RaftEntry.term P.record v ((c.node v).state.journal.logSize - 1)
    (c.node v).state.journal.termOfLastEntry (c.node v).state.reached
  sent : ∀ m ∈ c.appendRequests, OnPath P.made m.2 ∧ m.2.leader.empty = false
  snapshots : ∀ n r, (c.node n).replicator = some r → r.snapshot.status = .LEADER

/-- The log of a node after a step that took entries: it ends below an entry of the term of the
node, and has all it had that lies there. -/
structure Joins (L : Int → Int → RaftEntry → Prop) (s s' : RaftState) : Prop where
  path : Path RaftEntry.term L s'.term (s'.journal.logSize - 1) s'.journal.termOfLastEntry
  voted : s'.votedFor.empty = false
  above : ∀ m u,
    Over RaftEntry.term L (s.journal.logSize - 1) s.journal.termOfLastEntry m u →
    Path RaftEntry.term L s'.term m u → m < s'.journal.logSize

/-- What a step leaves of the log of a node. -/
structure Rests (L : Int → Int → RaftEntry → Prop) (s s' : RaftState) : Prop where
  log : Trims s.journal s'.journal ∨ Joins L s s'
  committed : ∀ i e, i ≤ s.journal.commitIndex → s'.journal.db.entries i = some e →
    s.journal.db.entries i = some e

theorem rests_of_trims {L : Int → Int → RaftEntry → Prop} {s s' : RaftState}
    (h : Trims s.journal s'.journal) : Rests L s s' := ⟨.inl h, fun i e _ he => h.entries i e he⟩

variable {members : RaftMembers} {base : Int} {c c' : Cluster} {n : RaftServer} {node : RaftNode}
  {P : Past} {first : RaftEntry} {made : Int → Int → RaftEntry → Prop}

/-! ## One node -/

theorem Recalled.good (h : Recalled P members first base c) (n : RaftServer) :
    Good (c.node n).state.journal := (h.elections.steady.sound n).journal_good

theorem Recalled.base_le (h : Recalled P members first base c) (n : RaftServer) :
    base ≤ (c.node n).state.journal.logStart := (h.elections.steady.fixed n).base_le

theorem Recalled.last (h : Recalled P members first base c) (n : RaftServer) :
    ((c.node n).state.journal.logSize - 1 = base ∧
      (c.node n).state.journal.termOfLastEntry = first.term) ∨
    Made RaftEntry.term P.made ((c.node n).state.journal.logSize - 1)
      (c.node n).state.journal.termOfLastEntry :=
  (h.written.logs n).last (h.good n) (h.base_le n) (h.written.at_base n)

theorem Recalled.last_le (h : Recalled P members first base c) (n : RaftServer) :
    (c.node n).state.journal.termOfLastEntry ≤ (c.node n).state.term := by
  have hle := (h.good n).last_le
  rwa [(h.elections.steady.sound n).term_eq] at hle

/-- The last entry of a leader is one of its own. -/
theorem Recalled.leader_made (h : Recalled P members first base c)
    (hl : (c.node n).state.status = .LEADER) :
    Made RaftEntry.term P.made ((c.node n).state.journal.logSize - 1) (c.node n).state.term := by
  obtain ⟨hbase, hterm⟩ := h.ended n hl
  rcases h.last n with ⟨heq, -⟩ | hmade
  · omega
  · rwa [hterm] at hmade

theorem Recalled.floor_lt (h : Recalled P members first base c)
    (hl : (c.node n).state.status = .LEADER) : first.term < (c.node n).state.term := by
  obtain ⟨p, e, he, ht⟩ := h.leader_made hl
  rw [← ht]
  exact h.lawful.floor_lt _ p e he

/-! ## One step -/

/-- A step of a run, with the entries that were made by then. -/
structure Advance (P : Past) (members : RaftMembers) (first : RaftEntry) (base : Int)
    (c c' : Cluster) (n : RaftServer) (node : RaftNode)
    (made : Int → Int → RaftEntry → Prop) : Prop where
  recalled : Recalled P members first base c
  node_eq : c'.node = (c.setNode n node).node
  turn : Turn c c' n node
  minting : Minting P.made (c.node n).state node.state made
  elections : Elections (cast P.vote c') members base c'
  written : Written (cast P.vote c') (P.history.next made c') members.nodes first base c'

namespace Advance

theorem self (h : Advance P members first base c c' n node made) : c'.node n = node := by
  rw [h.node_eq]
  exact if_pos rfl

theorem other (h : Advance P members first base c c' n node made) {m : RaftServer}
    (hm : m ≠ n) : c'.node m = c.node m := by
  rw [h.node_eq]
  exact if_neg hm

theorem later (h : Advance P members first base c c' n node made) (m : RaftServer) :
    Later (c.node m).state (c'.node m).state :=
  later_of_turn h.recalled.elections.steady.sound h.node_eq h.turn m

theorem subset (h : Advance P members first base c c' n node made) :
    ∀ i p e, P.made i p e → made i p e := h.minting.subset

theorem good (h : Advance P members first base c c' n node made) (m : RaftServer) :
    Good (c'.node m).state.journal :=
  (h.elections.steady.sound m).journal_good

theorem last (h : Advance P members first base c c' n node made)
    (m : RaftServer) :
    ((c'.node m).state.journal.logSize - 1 = base ∧
      (c'.node m).state.journal.termOfLastEntry = first.term) ∨
    Made RaftEntry.term made ((c'.node m).state.journal.logSize - 1)
      (c'.node m).state.journal.termOfLastEntry :=
  (h.written.logs m).last (h.good m) (h.elections.steady.fixed m).base_le (h.written.at_base m)

/-- A node that made an entry led before, or it is the first of its term. -/
theorem leader_or_first (h : Advance P members first base c c' n node made)
    (hl : node.state.status = .LEADER) :
    ((c.node n).state.status = .LEADER ∧ node.state.term = (c.node n).state.term) ∨
    (c.node n).state.StandsAt node.state.term ((c.node n).state.journal.logSize - 1)
      (c.node n).state.journal.termOfLastEntry ∧
      ∀ i p e, P.made i p e → e.term ≠ node.state.term := by
  rcases h.turn.leader_before hl with ⟨h1, h2, -⟩ | hs
  · exact .inl ⟨h1, h2⟩
  refine .inr ⟨⟨hs.was_candidate, hs.leaderless, hs.in_term, rfl, rfl⟩, fun i p e he ht => ?_⟩
  -- The maker of an entry of the term would be this node, which was a candidate.
  obtain ⟨a, hled, -⟩ := h.recalled.written.makers i p e he
  rw [ht] at hled
  have hl' : (c'.node n).state.status = .LEADER := by rw [h.self]; exact hl
  have hwon := h.elections.backed.leaders n hl'
  rw [h.self] at hwon
  have hwas : Ballots.Elected (cast P.vote c') members.nodes node.state.term a :=
    (h.recalled.written.elected _ a hled).mono fun _ _ _ => .inl
  have han := Ballots.elected_unique h.elections.polled.once hwas hwon
  rw [han] at hled
  have hnot := h.recalled.written.not_candidate (RaftState.later_self _) hs.was_candidate
  rw [hs.in_term] at hnot
  exact hnot hled

/-! ### The ledger -/

theorem unbroken (h : Advance P members first base c c' n node made) :
    Chains.Unbroken RaftEntry.term made := by
  have hold := h.recalled.lawful.unbroken
  cases hm : h.minting with
  | nothing => exact hold
  | @entry j0 entry hj hnode hl hterm hfresh =>
    rintro i p e (he | ⟨rfl, rfl, rfl⟩) k ⟨q, f, hf | ⟨rfl, rfl, rfl⟩, hft⟩ hki
    · obtain ⟨h1, h2⟩ := hold i p e he k ⟨q, f, hf, hft⟩ hki
      exact ⟨h1, h2.mono fun _ _ _ => .inl⟩
    · have hlt := hfresh i p e he hft.symm
      omega
    · rcases h.leader_or_first hl with ⟨hl0, ht0⟩ | ⟨-, hnone⟩
      · obtain ⟨-, hlast⟩ := h.recalled.ended n hl0
        have hmade := h.recalled.leader_made hl0
        rw [hj.last_eq (h.recalled.good n), hj.size_eq, hlast, hterm, ht0]
        exact ⟨rfl, hmade.mono fun _ _ _ => .inl⟩
      · exact absurd (hft.trans hterm) (hnone k q f hf)
    · omega

theorem grounded (h : Advance P members first base c c' n node made) :
    Chains.Grounded RaftEntry.term base made := by
  cases hm : h.minting with
  | nothing => exact h.recalled.lawful.grounded
  | @entry j0 entry hj hnode hl hterm hfresh =>
    rintro i p e (he | ⟨rfl, rfl, rfl⟩)
    · obtain ⟨h1, h2 | h2⟩ := h.recalled.lawful.grounded i p e he
      · exact ⟨h1, .inl h2⟩
      · exact ⟨h1, .inr (h2.mono fun _ _ _ => .inl)⟩
    · have hb := h.recalled.base_le n
      have h1 := (h.recalled.good n).start_le_commit
      have h2 := (h.recalled.good n).commit_lt_size
      rw [hj.last_eq (h.recalled.good n), hj.size_eq]
      refine ⟨by omega, ?_⟩
      rcases h.recalled.last n with ⟨h3, -⟩ | h3
      · exact .inl h3
      · exact .inr (h3.mono fun _ _ _ => .inl)

theorem rising (h : Advance P members first base c c' n node made) :
    Chains.Rising RaftEntry.term made := by
  cases hm : h.minting with
  | nothing => exact h.recalled.lawful.rising
  | @entry j0 entry hj hnode hl hterm hfresh =>
    rintro i p e (he | ⟨rfl, rfl, rfl⟩)
    · exact h.recalled.lawful.rising i p e he
    · rw [hj.last_eq (h.recalled.good n), hterm]
      have hterm' := (h.later n).term
      rw [h.self] at hterm'
      exact le_trans (h.recalled.last_le n) hterm'

theorem floor_lt (h : Advance P members first base c c' n node made) :
    ∀ i p e, made i p e → first.term < e.term := by
  cases hm : h.minting with
  | nothing => exact h.recalled.lawful.floor_lt
  | @entry j0 entry hj hnode hl hterm hfresh =>
    rintro i p e (he | ⟨rfl, rfl, rfl⟩)
    · exact h.recalled.lawful.floor_lt i p e he
    · rw [hterm]
      rcases h.leader_or_first hl with ⟨hl0, ht0⟩ | ⟨hs, -⟩
      · rw [ht0]
        exact h.recalled.floor_lt hl0
      · exact (h.recalled.stood_before _ _ _ _ (h.recalled.standing _ _ _ _ hs)).2.1

/-! ### Candidates and votes -/

/-- A node that stands in an election stood in it before, or starts it. -/
theorem stands_node (h : Advance P members first base c c' n node made) {T ci cu : Int}
    (hs : node.state.StandsAt T ci cu) : P.stood n T ci cu ∨
      ∃ req, Campaign (c.node n).state node.state req ∧ T = req.term ∧ ci = req.lastIndex ∧
        cu = req.lastTerm := by
  have hsent := h.recalled.sent
  obtain ⟨hcand, hleader, hT, hci, hcu⟩ := hs
  cases h.turn with
  | calm hc =>
    rcases hc with hq | ⟨req, -, hg⟩
    · obtain ⟨h1, h2, h3⟩ := hq.stands hcand hleader
      rw [hq.calm.journal.size_eq] at hci
      rw [hq.calm.journal.last_eq (h.recalled.good n)] at hcu
      exact .inl (h.recalled.standing n T ci cu ⟨h2, h3, h1.symm.trans hT, hci, hcu⟩)
    · rw [hg.status] at hcand
      cases hcand
  | candidacy hc =>
    rw [hc.candidacy.journal.size_eq, ← hc.lastIndex] at hci
    rw [hc.candidacy.journal.last_eq (h.recalled.good n), ← hc.lastTerm] at hcu
    exact .inr ⟨_, hc, hT.symm.trans hc.candidacy.term, hci, hcu⟩
  | ascent _ _ _ has =>
    rw [has.status] at hcand
    cases hcand
  | append hl _ _ _ hn =>
    rw [hn] at hcand
    exact absurd (hl.symm.trans hcand) (by decide)
  | receive hm _ _ hl _ hn =>
    rw [hn] at hleader
    have hne := (hsent _ hm).2
    rw [← hl] at hne
    exact absurd (hne.symm.trans hleader) (by decide)

theorem stood_next (h : Advance P members first base c c' n node made) {a : RaftServer}
    {T ci cu : Int} (hs : (P.next made first.term c').stood a T ci cu) : P.stood a T ci cu ∨
      a = n ∧ ∃ req, Campaign (c.node n).state node.state req ∧ T = req.term ∧
        ci = req.lastIndex ∧ cu = req.lastTerm := by
  rcases hs with hs | hs
  · exact .inl hs
  by_cases han : a = n
  · subst han
    rw [h.self] at hs
    rcases h.stands_node hs with hs | hs
    · exact .inl hs
    · exact .inr ⟨rfl, hs⟩
  · rw [h.other han] at hs
    exact .inl (h.recalled.standing a T ci cu hs)

/-- The vote that a node has in its term is an old one, or no vote for a member, or one for the
candidate that it was given to. -/
theorem ballot_node (h : Advance P members first base c c' n node made) {T : Int}
    {a : RaftServer} (hv : c'.Holds n T a) : P.vote n T a ∨ a = RaftServer.BLOCKED_VOTE ∨
      (∃ req, (n, req) ∈ c.voteRequests ∧ Grants (c.node n).state node.state req ∧
        T = req.term ∧ a = req.candidate) ∨
      ∃ req, Campaign (c.node n).state node.state req ∧ T = req.term ∧ a = n := by
  have hmyself := h.recalled.elections.steady.myself n
  have hcurrent := h.recalled.elections.polled.current n T a
  obtain ⟨hT, hvote, hne⟩ := hv
  rw [h.self] at hT hvote
  have hquiet : ∀ {s : RaftState}, Quiet (c.Named n) (c.node n).state s → s.term = T →
      s.votedFor = a → P.vote n T a ∨ a = RaftServer.BLOCKED_VOTE := by
    intro s hq hT hvote
    rcases hq.ballot with ⟨h1, h2⟩ | h2 | h2
    · exact .inl (hcurrent ⟨h1.symm.trans hT, h2.symm.trans hvote, hne⟩)
    · rw [hvote, hne] at h2
      cases h2
    · exact .inr (hvote.symm.trans h2)
  cases h.turn with
  | calm hc =>
    rcases hc with hq | ⟨req, hreq, hg⟩
    · rcases hquiet hq hT hvote with h1 | h1
      · exact .inl h1
      · exact .inr (.inl h1)
    · exact .inr (.inr (.inl
        ⟨req, hreq, hg, hT.symm.trans hg.term, hvote.symm.trans hg.vote⟩))
  | candidacy hc =>
    exact .inr (.inr (.inr ⟨_, hc, hT.symm.trans hc.candidacy.term,
      hvote.symm.trans (hc.candidacy.vote.trans hmyself)⟩))
  | ascent _ _ _ has _ _ _ _ hs =>
    have hterm : node.state.term = (c.node n).state.term :=
      (has.term_eq.trans has.in_term).trans hs.in_term.symm
    have hself := (h.recalled.elections.steady.sound n).voted_self (.inl hs.was_candidate)
    have hnamed : (c.node n).state.votedFor.empty = false := by
      rw [hself, hmyself]
      exact h.recalled.elections.named n (h.recalled.elections.steady.active n
        (by rw [hs.was_candidate]; decide))
    have hlater := h.later n
    rw [h.self] at hlater
    have hsame := hlater.vote hterm hnamed
    exact .inl (hcurrent ⟨hterm.symm.trans hT, hsame.symm.trans hvote, hne⟩)
  | append _ _ _ _ hn =>
    rw [hn] at hT hvote
    exact .inl (hcurrent ⟨hT, hvote, hne⟩)
  | receive _ hc _ _ _ hn =>
    rw [hn] at hT hvote
    rcases hquiet hc.quiet hT hvote with h1 | h1
    · exact .inl h1
    · exact .inr (.inl h1)

theorem asked (h : Advance P members first base c c' n node made) :
    ∀ m ∈ c'.voteRequests, (P.next made first.term c').stood m.2.candidate m.2.term
      m.2.lastIndex m.2.lastTerm := by
  intro m hm
  have hold : m ∈ c.voteRequests → (P.next made first.term c').stood m.2.candidate m.2.term
      m.2.lastIndex m.2.lastTerm := fun hm => .inl (h.recalled.asked m hm)
  cases h.turn with
  | calm _ _ _ _ hr => exact hold (by rwa [hr] at hm)
  | candidacy hc _ _ _ hr =>
    rcases hr m hm with hm | ⟨hm, -⟩
    · exact hold hm
    · have hcand : m.2.candidate = n := by
        rw [hm, hc.candidacy.candidate]
        exact h.recalled.elections.steady.myself n
      refine .inr ?_
      rw [hcand, h.self, hm]
      exact ⟨hc.candidacy.status, hc.leaderless, hc.candidacy.term,
        by rw [hc.candidacy.journal.size_eq]; exact hc.lastIndex,
        by rw [hc.candidacy.journal.last_eq (h.recalled.good n)]; exact hc.lastTerm⟩
  | ascent _ _ _ _ _ _ _ hr => exact hold (by rwa [hr] at hm)
  | append _ _ _ _ _ _ _ hr => exact hold (by rwa [hr] at hm)
  | receive _ _ _ _ _ _ _ _ hr => exact hold (by rwa [hr] at hm)

/-! ### Logs -/

theorem rests_of_entry (h : Advance P members first base c c' n node made) {j0 : RaftJournal}
    {entry : RaftEntry} (hj : Trims (c.node n).state.journal j0)
    (hnode : node.state.journal = j0.withEntry entry) (hl : node.state.status = .LEADER)
    (hterm : entry.term = node.state.term) : Rests made (c.node n).state node.state := by
  have hb := h.recalled.base_le n
  have h1 := (h.recalled.good n).start_le_commit
  have h2 := (h.recalled.good n).commit_lt_size
  have hlast := h.last n
  have hsound := h.elections.steady.sound n
  have hmyself := h.elections.steady.myself n
  have hactive := h.elections.steady.active n
  rw [h.self] at hlast hsound hmyself hactive
  have hsize : node.state.journal.logSize = (c.node n).state.journal.logSize + 1 := by
    rw [hnode, ← hj.size_eq]
    rfl
  have hend : node.state.journal.termOfLastEntry = node.state.term := by
    rw [hnode]
    exact hterm
  refine ⟨.inr ⟨?_, ?_, fun m u ho _ => ?_⟩, fun i e hi he => ?_⟩
  · rcases hlast with ⟨hbase, -⟩ | hmade
    · omega
    · rw [hend] at hmade ⊢
      exact hmade.path
  · rw [hsound.voted_self (.inr hl), hmyself]
    exact h.elections.named n (hactive (by rw [hl]; decide))
  · have hle := ho.le
    omega
  · rw [hnode, RaftJournal.withEntry_entries, if_neg (by rw [hj.size_eq]; omega)] at he
    exact hj.entries i e he

theorem rests_node (h : Advance P members first base c c' n node made) :
    Rests made (c.node n).state node.state := by
  have hsent := h.recalled.sent
  have hsegment := h.recalled.written.requests
  cases h.turn with
  | calm hc => exact rests_of_trims hc.calm.journal
  | candidacy hc => exact rests_of_trims hc.candidacy.journal
  | ascent _ hc _ has =>
    exact h.rests_of_entry hc.journal has.journal has.status
      (has.in_term.symm.trans has.term_eq.symm)
  | append hl ht _ _ hn =>
    exact h.rests_of_entry (trims_self (h.recalled.good n)) (by rw [hn]; rfl) (by rw [hn]; exact hl)
      (by rw [hn]; exact ht)
  | @receive s0 req lastApplied hm hc ht hl _ hn =>
    obtain ⟨hpath, hne⟩ := hsent _ hm
    have htrims := hc.quiet.calm.journal
    have hlast := htrims.last_eq (h.recalled.good n)
    have hjoins := receive_joins h.written.single h.unbroken
      (((h.recalled.written.logs n).of_subset htrims.entries).mono h.subset)
      hc.quiet.calm.sound.journal_good (le_trans (h.recalled.base_le n) htrims.start_le) lastApplied
      (hpath.mono h.subset) ((hsegment _ hm).mono h.subset) rfl
    rcases hjoins with htr | ⟨h1, h2, h3⟩
    · rw [hn]
      exact rests_of_trims (htrims.trans htr)
    · rw [← ht] at h1 h2
      rw [hlast, htrims.size_eq] at h2
      rw [hn]
      refine ⟨.inr ⟨h1, ?_, h2⟩, fun i e hi he => htrims.entries i e (h3 i e ?_ he)⟩
      · exact (hc.quiet.tended (h.recalled.tended n)).voted (by rw [hl]; exact hne)
      · rw [hc.commit_eq]
        exact hi

theorem rests (h : Advance P members first base c c' n node made) (v : RaftServer) :
    Rests made (c.node v).state (c'.node v).state := by
  by_cases hv : v = n
  · subst hv
    rw [h.self]
    exact h.rests_node
  · rw [h.other hv]
    exact rests_of_trims (trims_self (h.recalled.good v))

theorem tended_node (h : Advance P members first base c c' n node made) : Tended node.state := by
  have hold := h.recalled.tended n
  cases h.turn with
  | calm hc =>
    rcases hc with hq | ⟨req, -, hg⟩
    · exact hq.tended hold
    · refine ⟨by rw [hg.status]; decide, fun hl => ?_⟩
      rw [hg.leaderless] at hl
      cases hl
  | candidacy hc =>
    refine ⟨by rw [hc.candidacy.status]; decide, fun hl => ?_⟩
    rw [hc.leaderless] at hl
    cases hl
  | ascent _ _ _ _ _ _ _ _ hs =>
    refine hs.tended ?_
    rw [h.recalled.elections.steady.myself]
    exact h.recalled.elections.named n (h.recalled.elections.steady.active n
      (by rw [hs.was_candidate]; decide))
  | append _ _ _ _ hn =>
    rw [hn]
    exact ⟨hold.up, hold.voted⟩
  | receive _ hc _ _ _ hn =>
    have hs := hc.quiet.tended hold
    rw [hn]
    exact ⟨hs.up, hs.voted⟩

theorem ended_node (h : Advance P members first base c c' n node made)
    (hl : node.state.status = .LEADER) : base < node.state.journal.logSize - 1 ∧
      node.state.journal.termOfLastEntry = node.state.term := by
  have hb := h.recalled.base_le n
  have h1 := (h.recalled.good n).start_le_commit
  have h2 := (h.recalled.good n).commit_lt_size
  cases h.turn with
  | calm hc =>
    obtain ⟨hl0, ht⟩ := hc.calm.leads hl
    have hold := h.recalled.ended n hl0
    rw [hc.calm.journal.size_eq, hc.calm.journal.last_eq (h.recalled.good n), ht]
    exact hold
  | candidacy hc =>
    rw [hc.candidacy.status] at hl
    cases hl
  | @ascent s0 _ _ hc _ has =>
    have hsize := hc.journal.size_eq
    rw [has.journal]
    refine ⟨?_, has.in_term.symm.trans has.term_eq.symm⟩
    show base < s0.journal.logSize + 1 - 1
    omega
  | append _ ht _ _ hn =>
    rw [hn]
    refine ⟨?_, ht⟩
    show base < (c.node n).state.journal.logSize + 1 - 1
    omega
  | @receive s0 _ _ _ hc _ hlead hne hn =>
    rw [hn] at hl
    have hl : s0.status = .LEADER := hl
    exact absurd (hlead.symm.trans (hc.quiet.calm.sound.leader_self hl)) hne

/-! ### What nodes held -/

theorem held_next (h : Advance P members first base c c' n node made) {v : RaftServer} {T k : Int}
    (hk : (c'.node v).state.HoldsAt first.term T k) : Made RaftEntry.term made k T ∧
      (c'.node v).state.votedFor.empty = false := by
  obtain ⟨rfl, hlast, rfl, hfloor⟩ := hk
  refine ⟨?_, ?_⟩
  · rcases h.last v with ⟨-, hfirst⟩ | hmade
    · omega
    · rwa [hlast] at hmade
  · rcases (h.rests v).log with htr | hj
    · -- The end of the log is an old one, and so is the term.
      have hlater := h.later v
      have hle := h.recalled.last_le v
      have hsame := htr.last_eq (h.recalled.good v)
      have hterm := hlater.term
      have ht : (c'.node v).state.term = (c.node v).state.term := by omega
      have hv := (h.recalled.voted v (c.node v).state.term _
        ⟨rfl, by omega, rfl, by omega⟩).1
      rw [hlater.vote ht hv]
      exact hv
    · exact hj.voted

/-- What was made below what a node held in a term had been made when it held it. -/
theorem fresh (h : Advance P members first base c c' n node made) {v : RaftServer} {T k m : Int}
    (hk : P.held v T k) (hmk : m ≤ k) (hm : Made RaftEntry.term made m T) :
    Made RaftEntry.term P.made m T := by
  obtain ⟨p, e, he, ht⟩ := hm
  obtain ⟨q, f, hf, hft⟩ := (h.recalled.held_made v T k hk).1
  cases hmint : h.minting with
  | nothing => exact ⟨p, e, he, ht⟩
  | @entry j0 entry hj hnode hl hterm hfresh =>
    rcases he with he | ⟨rfl, rfl, rfl⟩
    · exact ⟨p, e, he, ht⟩
    · have hlt := hfresh k q f hf (hft.trans ht.symm)
      omega

theorem keeps_next (h : Advance P members first base c c' n node made) {v : RaftServer}
    {i u C i' u' C' : Int} (hk : Ballots.Keeps RaftEntry.term P.record v i u C) (hC : C ≤ C')
    (hold : ∀ T k, P.held v T k → T ≤ C' → T ≤ C)
    (hnew : ∀ T k, (c'.node v).state.HoldsAt first.term T k → T ≤ C' →
      T = u' ∧ k = i' ∧ Made RaftEntry.term made i' u')
    (hlog : ∀ m T, T ≤ C' → Over RaftEntry.term P.made i u m T → Made RaftEntry.term made m T →
      Ballots.Safe RaftEntry.term (P.next made first.term c').record m T C' →
      Over RaftEntry.term made i' u' m T) :
    Ballots.Keeps RaftEntry.term (P.next made first.term c').record v i' u' C' := by
  refine hk.next hC h.subset h.written.single h.unbroken h.recalled.lawful.grounded h.grounded hold
    (fun T k m hk hmk hm => h.fresh hk hmk hm) (fun T k hk hT => ?_) hlog
  rcases hk with hk | hk
  · exact .inl hk
  · exact .inr (hnew T k hk hT)

/-- Each log keeps what the node held in the terms that it has reached. -/
theorem keeps (h : Advance P members first base c c' n node made) (v : RaftServer) :
    Ballots.Keeps RaftEntry.term (P.next made first.term c').record v
      ((c'.node v).state.journal.logSize - 1) (c'.node v).state.journal.termOfLastEntry
      (c'.node v).state.reached := by
  refine h.keeps_next (h.recalled.keeps v) (RaftState.Later.reached (h.later v))
    (fun T k hk _ => (h.recalled.held_made v T k hk).2) (fun T k hk _ => ?_)
    fun m T hT ho hm hsafe => ?_
  · obtain ⟨hmade, -⟩ := h.held_next hk
    obtain ⟨-, hlast, rfl, -⟩ := hk
    rw [hlast]
    exact ⟨rfl, rfl, hmade⟩
  · rcases (h.rests v).log with htr | hj
    · rw [htr.size_eq, htr.last_eq (h.recalled.good v)]
      exact ho.mono h.subset
    · -- The place lies below the entries of the term, and so in the new log.
      have hreached := RaftState.reached_of_voted hj.voted
      rw [hreached] at hT hsafe
      have hpath : Path RaftEntry.term made (c'.node v).state.term m T := by
        rcases eq_or_lt_of_le hT with rfl | hlt
        · exact hm.path
        · obtain ⟨i, ⟨p, e, he, ht⟩, -⟩ := hj.path
          have hover := hsafe i p e he (by rw [ht]; exact hlt) (le_of_eq ht)
          rw [ht] at hover
          exact ⟨i, ⟨p, e, he, ht⟩, hover⟩
      have habove := hj.above m T (ho.mono h.subset) hpath
      exact hj.path.linear h.written.single h.unbroken hpath (by omega)

/-! ### Elections -/

/-- Who votes for a candidate has no later log, and keeps what it held. -/
theorem voted (h : Advance P members first base c c' n node made) {v a : RaftServer} {T : Int}
    (hv : cast P.vote c' v T a) {ci cu : Int} (hs : (P.next made first.term c').stood a T ci cu) :
    ∃ i u, (u < cu ∨ u = cu ∧ i ≤ ci) ∧
      Ballots.Keeps RaftEntry.term (P.next made first.term c').record v i u (T - 1) := by
  have hholds : (c'.node v).state.term = T → ∀ T' k, (c'.node v).state.HoldsAt first.term T' k →
      ¬ T' ≤ T - 1 := by
    rintro hT T' k ⟨hT', -⟩
    omega
  have hold : P.vote v T a → P.stood a T ci cu → ∃ i u, (u < cu ∨ u = cu ∧ i ≤ ci) ∧
      Ballots.Keeps RaftEntry.term (P.next made first.term c').record v i u (T - 1) := by
    intro hv hs
    obtain ⟨i, u, hup, hk⟩ := h.recalled.lawful.voted v T a hv ci cu hs
    have hT := (h.recalled.elections.polled.known v T a hv).1
    have hterm := (h.later v).term
    refine ⟨i, u, hup, h.keeps_next hk (le_refl _) (fun _ _ _ => id) ?_
      fun m T' _ ho _ _ => ho.mono h.subset⟩
    rintro T' k ⟨hT', -⟩ hle
    omega
  -- The log of a node that votes now.
  have hnow : ∀ {T : Int}, (c'.node n).state.term = T → (c.node n).state.reached ≤ T - 1 →
      Ballots.Keeps RaftEntry.term (P.next made first.term c').record n
        ((c.node n).state.journal.logSize - 1) (c.node n).state.journal.termOfLastEntry
        (T - 1) := by
    intro T hT hle
    refine h.keeps_next (h.recalled.keeps n) hle
      (fun T' k hk _ => (h.recalled.held_made n T' k hk).2) ?_
      fun m T' _ ho _ _ => ho.mono h.subset
    rintro T' k ⟨hT', -⟩ hle
    omega
  have hmember : a ∈ members.nodes := by
    rcases h.stood_next hs with hs | ⟨rfl, req, hstands, -⟩
    · exact (h.recalled.stood_before a T ci cu hs).1
    · refine h.elections.steady.active a ?_
      rw [h.self, hstands.candidacy.status]
      decide
  have hunblocked : a ≠ RaftServer.BLOCKED_VOTE := by
    rintro rfl
    exact h.recalled.unblocked hmember
  have hnode : P.vote v T a ∨ v = n ∧ c'.Holds n T a := by
    rcases hv with hv | hv
    · exact .inl hv
    · by_cases hvn : v = n
      · exact .inr ⟨hvn, hvn ▸ hv⟩
      · have hv : c.Holds v T a := by
          unfold Holds at hv ⊢
          rwa [h.other hvn] at hv
        exact .inl (h.recalled.elections.polled.current v T a hv)
  have hbefore : ∀ {req : RaftVoteRequest}, Campaign (c.node n).state node.state req →
      ∀ {T ci cu}, P.stood n T ci cu → T < req.term := by
    intro req hstands T ci cu hs
    have hle := (h.recalled.stood_before n T ci cu hs).2.2
    have hnext := hstands.next
    omega
  rcases h.stood_next hs with hs | ⟨rfl, req, hstands, rfl, rfl, rfl⟩
  · rcases hnode with hv | ⟨rfl, hv⟩
    · exact hold hv hs
    have hT := hv.1
    rcases h.ballot_node hv with hv | hb | ⟨req, hreq, hg, rfl, rfl⟩ | ⟨req, hstands, rfl, rfl⟩
    · exact hold hv hs
    · exact absurd hb hunblocked
    · obtain ⟨rfl, rfl⟩ :=
        h.recalled.stood_once _ _ _ _ _ _ hs (h.recalled.asked _ hreq)
      refine ⟨_, _, hg.ahead, hnow hT ?_⟩
      have hbounds := (c.node v).state.reached_bounds
      have hterm := (h.later v).term
      by_cases ht : (c.node v).state.term = req.term
      · have hfree := hg.free ht
        unfold RaftState.reached
        rw [hfree]
        simp only [if_true]
        omega
      · omega
    · exact absurd (hbefore hstands hs) (lt_irrefl _)
  · -- A candidate that just stood has its own vote only.
    have hself : v = a ∧ c'.Holds a req.term a := by
      rcases hnode with hv | hv
      · obtain ⟨ci, cu, hs⟩ := h.recalled.backed v _ a hv hmember
        exact absurd (hbefore hstands hs) (lt_irrefl _)
      · exact hv
    obtain ⟨rfl, hv⟩ := hself
    have hbounds := (c.node v).state.reached_bounds
    have hnext := hstands.next
    refine ⟨_, _, .inr ⟨hstands.lastTerm.symm, le_of_eq hstands.lastIndex.symm⟩,
      hnow hv.1 (by omega)⟩

/-- Each entry of a term is above the marker of its leader, which a majority elected. -/
theorem won (h : Advance P members first base c c' n node made) {i p : Int} {e : RaftEntry}
    (he : made i p e) : ∃ a ci cu f, Ballots.Elected (cast P.vote c') members.nodes e.term a ∧
      (P.next made first.term c').stood a e.term ci cu ∧ made (ci + 1) cu f ∧ f.term = e.term ∧
      ci + 1 ≤ i := by
  have hold : ∀ {i p e}, P.made i p e → ∃ a ci cu f,
      Ballots.Elected (cast P.vote c') members.nodes e.term a ∧
      (P.next made first.term c').stood a e.term ci cu ∧ made (ci + 1) cu f ∧ f.term = e.term ∧
      ci + 1 ≤ i := by
    intro i p e he
    obtain ⟨a, ci, cu, f, h1, h2, h3, h4, h5⟩ := h.recalled.lawful.won i p e he
    exact ⟨a, ci, cu, f, h1.mono fun _ _ _ => .inl, .inl h2, h.subset _ _ _ h3, h4, h5⟩
  cases hmint : h.minting with
  | nothing => exact hold he
  | @entry j0 entry hj hnode hl hterm hfresh =>
    rcases he with he | ⟨rfl, rfl, rfl⟩
    · exact hold he
    have hlast := hj.last_eq (h.recalled.good n)
    rcases h.leader_or_first hl with ⟨hl0, ht0⟩ | ⟨hs, -⟩
    · obtain ⟨q, f, hf, hft⟩ := h.recalled.leader_made hl0
      obtain ⟨a, ci, cu, g, h1, h2, h3, h4, h5⟩ := hold hf
      rw [hft, ← ht0, ← hterm] at h1 h2 h4
      exact ⟨a, ci, cu, g, h1, h2, h3, h4, by rw [hj.size_eq]; omega⟩
    · have hwon := h.elections.backed.leaders n (by rw [h.self]; exact hl)
      rw [h.self, ← hterm] at hwon
      rw [← hterm] at hs
      refine ⟨n, _, _, _, hwon, .inl (h.recalled.standing n _ _ _ hs), .inr ⟨?_, ?_, rfl⟩, rfl, ?_⟩
      · rw [hj.size_eq]
        omega
      · exact hlast.symm
      · rw [hj.size_eq]
        omega

theorem lawful (h : Advance P members first base c c' n node made) :
    Ballots.Lawful RaftEntry.term members.nodes base first.term
      (P.next made first.term c').record := by
  refine ⟨h.written.single, h.rising, h.unbroken, h.grounded, h.floor_lt, fun a T ci cu hs => ?_,
    fun a T ci cu hs => ?_, fun i p e he => h.won he, fun v T a hv ci cu hs => h.voted hv hs⟩
  · rcases h.stood_next hs with hs | ⟨rfl, req, hstands, rfl, rfl, rfl⟩
    · exact h.recalled.lawful.stood_lt a T ci cu hs
    · have hle := h.recalled.last_le a
      have hnext := hstands.next
      have hlast := hstands.lastTerm
      omega
  · rcases h.stood_next hs with hs | ⟨rfl, req, hstands, rfl, rfl, rfl⟩
    · rcases h.recalled.lawful.stood_made a T ci cu hs with hbase | hm
      · exact .inl hbase
      · exact .inr (hm.mono h.subset)
    · rw [hstands.lastIndex, hstands.lastTerm]
      rcases h.recalled.last a with hbase | hm
      · exact .inl hbase
      · exact .inr (hm.mono h.subset)

/-! ### What stays as it was -/

theorem floor_le (h : Advance P members first base c c' n node made) (m : RaftServer) :
    first.term ≤ (c'.node m).state.term := le_trans (h.recalled.floor_le m) (h.later m).term

theorem stood_before (h : Advance P members first base c c' n node made) {a : RaftServer}
    {T ci cu : Int} (hs : (P.next made first.term c').stood a T ci cu) :
    a ∈ members.nodes ∧ first.term < T ∧ T ≤ (c'.node a).state.term := by
  rcases h.stood_next hs with hs | ⟨rfl, req, hstands, rfl, -⟩
  · obtain ⟨h1, h2, h3⟩ := h.recalled.stood_before a T ci cu hs
    exact ⟨h1, h2, le_trans h3 (h.later a).term⟩
  · have hterm := hstands.candidacy.term
    have hmember := h.elections.steady.active a
    rw [h.self] at hmember ⊢
    exact ⟨hmember (by rw [hstands.candidacy.status]; decide),
      by rw [hstands.next]; exact Int.lt_add_one_of_le (h.recalled.floor_le a), le_of_eq hterm.symm⟩

theorem stood_once (h : Advance P members first base c c' n node made) {a : RaftServer}
    {T ci cu ci' cu' : Int} (hs : (P.next made first.term c').stood a T ci cu)
    (hs' : (P.next made first.term c').stood a T ci' cu') : ci = ci' ∧ cu = cu' := by
  have hnew : ∀ {req : RaftVoteRequest}, Campaign (c.node n).state node.state req →
      ∀ {ci cu}, ¬ P.stood n req.term ci cu := by
    intro req hstands ci cu hs
    have hle := (h.recalled.stood_before n _ _ _ hs).2.2
    have hnext := hstands.next
    omega
  rcases h.stood_next hs with hs | ⟨rfl, req, hstands, rfl, rfl, rfl⟩ <;>
    rcases h.stood_next hs' with hs' | ⟨heq, req', hstands', hT, rfl, rfl⟩
  · exact h.recalled.stood_once a T ci cu ci' cu' hs hs'
  · rw [heq, hT] at hs
    exact absurd hs (hnew hstands')
  · exact absurd hs' (hnew hstands)
  · exact ⟨hstands.lastIndex.trans hstands'.lastIndex.symm,
      hstands.lastTerm.trans hstands'.lastTerm.symm⟩

theorem backed (h : Advance P members first base c c' n node made) {v a : RaftServer} {T : Int}
    (hv : cast P.vote c' v T a) (ha : a ∈ members.nodes) :
    ∃ ci cu, (P.next made first.term c').stood a T ci cu := by
  have hold : P.vote v T a → ∃ ci cu, (P.next made first.term c').stood a T ci cu := by
    intro hv
    obtain ⟨ci, cu, hs⟩ := h.recalled.backed v T a hv ha
    exact ⟨ci, cu, .inl hs⟩
  rcases hv with hv | hv
  · exact hold hv
  by_cases hvn : v = n
  · subst hvn
    rcases h.ballot_node hv with hv | rfl | ⟨req, hreq, -, rfl, rfl⟩ | ⟨req, hstands, rfl, rfl⟩
    · exact hold hv
    · exact absurd ha h.recalled.unblocked
    · exact ⟨_, _, .inl (h.recalled.asked _ hreq)⟩
    · have hnow : (c'.node a).state.StandsAt req.term ((c'.node a).state.journal.logSize - 1)
          (c'.node a).state.journal.termOfLastEntry := by
        rw [h.self]
        exact ⟨hstands.candidacy.status, hstands.leaderless, hstands.candidacy.term, rfl, rfl⟩
      exact ⟨_, _, .inr hnow⟩
  · refine hold (h.recalled.elections.polled.current v T a ?_)
    unfold Holds at hv ⊢
    rwa [h.other hvn] at hv

theorem made_held (h : Advance P members first base c c' n node made) {i p : Int} {e : RaftEntry}
    (he : made i p e) : ∃ a k, (P.next made first.term c').led e.term a ∧ i ≤ k ∧
      (P.next made first.term c').held a e.term k := by
  have hold : ∀ {i p e}, P.made i p e → ∃ a k, (P.next made first.term c').led e.term a ∧ i ≤ k ∧
      (P.next made first.term c').held a e.term k := by
    intro i p e he
    obtain ⟨a, k, h1, h2, h3⟩ := h.recalled.made_held i p e he
    exact ⟨a, k, .inl h1, h2, .inl h3⟩
  have hfloor := h.floor_lt i p e he
  cases hmint : h.minting with
  | nothing => exact hold he
  | @entry j0 entry hj hnode hl hterm hfresh =>
    rcases he with he | ⟨rfl, rfl, rfl⟩
    · exact hold he
    · refine ⟨n, j0.logSize, .inr ?_, le_refl _, .inr ?_⟩
      · rw [h.self]
        exact ⟨hl, hterm.symm⟩
      · rw [h.self]
        refine ⟨hterm.symm, by rw [hnode]; rfl, ?_, hfloor⟩
        rw [hnode]
        show j0.logSize = j0.logSize + 1 - 1
        omega

theorem held_made (h : Advance P members first base c c' n node made) {v : RaftServer} {T k : Int}
    (hk : (P.next made first.term c').held v T k) :
    Made RaftEntry.term made k T ∧ T ≤ (c'.node v).state.reached := by
  rcases hk with hk | hk
  · obtain ⟨h1, h2⟩ := h.recalled.held_made v T k hk
    exact ⟨h1.mono h.subset, le_trans h2 (RaftState.Later.reached (h.later v))⟩
  · obtain ⟨h1, h2⟩ := h.held_next hk
    rw [RaftState.reached_of_voted h2]
    exact ⟨h1, le_of_eq hk.1.symm⟩

end Advance

/-! ## Trackers that send -/

/-- A tracker sends only while its snapshot is that of its node: in the code, the check at the
top of its loop and the sending are two steps. -/
def sendsCurrent (c : Cluster) : ClusterStep → Bool
  | .sendPayload n target =>
    match c.trackerOf n target with
    | some (r, _) => (c.node n).isCurrent r
    | none => true
  | _ => true

theorem isCurrent_of_sends {target : RaftServer} {r : RaftReplicator} {t : RaftReplicaTracker}
    (hx : c.sendsCurrent (.sendPayload n target)) (ht : c.trackerOf n target = some (r, t)) :
    (c.node n).isCurrent r = true := by
  have hx : (match c.trackerOf n target with
    | some (r, _) => (c.node n).isCurrent r
    | none => true) = true := hx
  rw [ht] at hx
  exact hx

theorem trackerOf_some {target : RaftServer} {r : RaftReplicator} {t : RaftReplicaTracker}
    (h : c.trackerOf n target = some (r, t)) :
    (c.node n).replicator = some r ∧ r.targets.lookup target = some t := by
  unfold trackerOf at h
  split at h
  · rename_i r' hr
    obtain ⟨t', ht, he⟩ := Option.map_eq_some_iff.mp h
    cases he
    exact ⟨hr, ht⟩
  · cases h

/-- A node whose tracker sends leads the term of the tracker. -/
theorem Recalled.leads_of_current (h : Recalled P members first base c) {r : RaftReplicator}
    (hr : (c.node n).replicator = some r) (hcur : (c.node n).isCurrent r = true) :
    (c.node n).state.status = .LEADER ∧ r.snapshot.term = (c.node n).state.term := by
  have hlead := h.snapshots n r hr
  unfold RaftNode.isCurrent at hcur
  rw [← of_decide_eq_true hcur] at hlead ⊢
  exact ⟨hlead, rfl⟩

/-- What a leader sends lies below its last entry. -/
theorem Recalled.onPath_sent (h : Recalled P members first base c)
    (hl : (c.node n).state.status = .LEADER) {nextIndex payloadLimit lastTerm : Int}
    {req : RaftAppendEntriesRequest}
    (hp : RaftReplicaTracker.sendPayload (c.node n).state (c.node n).state.term nextIndex
      payloadLimit = some (req, lastTerm)) : OnPath P.made req := by
  obtain ⟨hprev, ⟨previous, hf, hpt⟩, hall⟩ := RaftReplicaTracker.sendPayload_some hp
  obtain ⟨hterm, -⟩ := RaftReplicaTracker.sendPayload_header hp
  have hmade := h.leader_made hl
  have hpath : ∀ i e, (c.node n).state.journal.db.entries i = some e →
      Path RaftEntry.term P.made req.term i e.term := by
    intro i e he
    have hover := (h.written.logs n).over_last (h.good n) (h.base_le n) he
    rw [(h.ended n hl).2] at hover
    rw [hterm]
    exact ⟨_, hmade, hover⟩
  refine ⟨?_, fun k e he => ?_⟩
  · rw [hprev, ← hpt]
    exact hpath _ _ hf
  · have hidx : req.prevIndex + 1 + (k : Int) = nextIndex + k := by omega
    rw [hidx]
    exact hpath _ _ (hall k e he)

/-- A new append request is what a tracker sends from the journal of its node. -/
theorem Move.pushes {x : ClusterStep} (hm : Move c x c' n node) (h : Running c)
    {m : RaftServer × RaftAppendEntriesRequest} (hnew : m ∈ c'.appendRequests) :
    m ∈ c.appendRequests ∨
    ∃ r t nextIndex payloadLimit lastTerm, x = .sendPayload n m.1 ∧
      c.trackerOf n m.1 = some (r, t) ∧
      RaftReplicaTracker.sendPayload (c.node n).state r.snapshot.term nextIndex payloadLimit =
        some (m.2, lastTerm) := by
  cases hm with
  | still _ _ ha => exact .inl (by rwa [ha] at hnew)
  | activate _ _ ha => exact .inl (by rwa [ha] at hnew)
  | idle _ _ _ ha => exact .inl (by rwa [ha] at hnew)
  | hear _ _ _ _ ha => exact .inl (by rwa [ha] at hnew)
  | append _ _ ha => exact .inl (by rwa [ha] at hnew)
  | autoCommit _ _ ha => exact .inl (by rwa [ha] at hnew)
  | push heq ht hpush _ ha =>
    rw [ha] at hnew
    rcases List.mem_append.mp hnew with hold | hnew
    · exact .inl hold
    · obtain ⟨req, hreq, rfl⟩ := List.mem_map.mp hnew
      have hstill : Still (c.Named n) _ _ ∧ _ := hpush.still h
      obtain ⟨nextIndex, payloadLimit, lastTerm, hsent⟩ := hstill.2 req (by simpa using hreq)
      exact .inr ⟨_, _, nextIndex, payloadLimit, lastTerm, heq, ht, hsent⟩

/-- A tracker that sends in time is one of a leader. -/
theorem Move.requests {x : ClusterStep} (hm : Move c x c' n node) (h : Running c)
    (hx : c.sendsCurrent x) {m : RaftServer × RaftAppendEntriesRequest}
    (hnew : m ∈ c'.appendRequests) : m ∈ c.appendRequests ∨
    ∃ r nextIndex payloadLimit lastTerm, (c.node n).replicator = some r ∧
      (c.node n).isCurrent r = true ∧
      RaftReplicaTracker.sendPayload (c.node n).state r.snapshot.term nextIndex payloadLimit =
        some (m.2, lastTerm) := by
  rcases hm.pushes h hnew with hold | ⟨r, t, nextIndex, payloadLimit, lastTerm, rfl, ht, hsent⟩
  · exact .inl hold
  · exact .inr ⟨r, nextIndex, payloadLimit, lastTerm, (trackerOf_some ht).1,
      isCurrent_of_sends hx ht, hsent⟩

theorem activate_frame {n n' : RaftNode} (h : n.activate = .ok n') :
    n'.state = n.state ∧ n'.commitTracker = n.commitTracker.reset.updateTargets
        (n.state.journal.members.nodes.filter fun s => s ≠ n.state.myself) ∧
      ∃ r, n'.replicator = some r ∧ r.snapshot = n.state.getSnapshot ∧
        ∀ p ∈ r.targets, p.2 = r.newTracker n.state ∧ p.1 ≠ n.state.myself := by
  unfold RaftNode.activate RaftNode.reconfigure RaftNode.allServersExceptMyself at h
  simp only [bind, Except.bind, pure, Except.pure] at h
  split at h
  · cases h
  rename_i fullNodes hfull
  split at hfull
  · cases hfull
    split at h
    · cases h
    · rename_i hobs
      cases h
      refine ⟨rfl, rfl, _, rfl, rfl, fun p hp => ?_⟩
      unfold RaftReplicator.setTargets at hp
      rcases List.mem_append.mp hp with hp | hp
      · cases hp
      · obtain ⟨t, ht, rfl⟩ := List.mem_map.mp hp
        refine ⟨rfl, ?_⟩
        rcases List.mem_append.mp (List.mem_filter.mp ht).1 with ht | ht
        · simpa using (List.mem_filter.mp ht).2
        · rintro rfl
          exact hobs ht
  · cases hfull

theorem setTracker_fst (r : RaftReplicator) (target : RaftServer) (t : RaftReplicaTracker) :
    (r.setTracker target t).targets.map Prod.fst = r.targets.map Prod.fst := by
  unfold RaftReplicator.setTracker
  rw [List.map_map]
  refine List.map_congr_left fun p _ => ?_
  by_cases hp : p.1 = target <;> simp [hp]

/-- A replicator is the old one with the same targets, or a leader has just activated it. -/
theorem Move.replicator {x : ClusterStep} (hm : Move c x c' n node) {r' : RaftReplicator}
    (hr : node.replicator = some r') :
    (∃ r, (c.node n).replicator = some r ∧ r'.snapshot = r.snapshot ∧
      r'.targets.map Prod.fst = r.targets.map Prod.fst) ∨
    (c.node n).state.status = .LEADER ∧ r'.snapshot = (c.node n).state.getSnapshot ∧
      ∀ p ∈ r'.targets, p.2 = r'.newTracker (c.node n).state ∧
        p.1 ≠ (c.node n).state.myself := by
  cases hm with
  | still _ hsame =>
    rcases hsame with ⟨hsame, -⟩ | ⟨hnone, -⟩
    · exact .inl ⟨r', hsame.symm.trans hr, rfl, rfl⟩
    · rw [hnone] at hr
      cases hr
  | activate hl hact =>
    obtain ⟨-, -, r, hr', hsnap, hnew⟩ := activate_frame hact
    rw [hr] at hr'
    cases hr'
    exact .inr ⟨hl, hsnap, hnew⟩
  | idle ht _ hn =>
    rw [hn] at hr
    cases hr
    exact .inl ⟨_, (trackerOf_some ht).1, rfl, setTracker_fst _ _ _⟩
  | push _ ht _ hn =>
    rw [hn] at hr
    cases hr
    exact .inl ⟨_, (trackerOf_some ht).1, rfl, setTracker_fst _ _ _⟩
  | hear ht _ _ hn =>
    rw [hn] at hr
    cases hr
    exact .inl ⟨_, (trackerOf_some ht).1, rfl, setTracker_fst _ _ _⟩
  | append _ hn =>
    rw [hn] at hr
    exact .inl ⟨r', hr, rfl, rfl⟩
  | autoCommit _ hn =>
    rw [hn] at hr
    exact .inl ⟨r', hr, rfl, rfl⟩

namespace Advance

theorem sent (h : Advance P members first base c c' n node made) {x : ClusterStep}
    (hm : Move c x c' n node) (hx : c.sendsCurrent x) :
    ∀ m ∈ c'.appendRequests, OnPath made m.2 ∧ m.2.leader.empty = false := by
  intro m hnew
  have hrunning := h.recalled.elections.steady.running h.recalled.elections.named
  rcases hm.requests hrunning hx hnew with hold | ⟨r, nextIndex, payloadLimit, _, hr, hcur, hp⟩
  · obtain ⟨h1, h2⟩ := h.recalled.sent m hold
    exact ⟨h1.mono h.subset, h2⟩
  · obtain ⟨hl, hterm⟩ := h.recalled.leads_of_current hr hcur
    rw [hterm] at hp
    refine ⟨(h.recalled.onPath_sent hl hp).mono h.subset, ?_⟩
    rw [(RaftReplicaTracker.sendPayload_header hp).2.1, h.recalled.elections.steady.myself]
    exact h.recalled.elections.named n (h.recalled.elections.steady.active n (by rw [hl]; decide))

theorem snapshots (h : Advance P members first base c c' n node made) {x : ClusterStep}
    (hm : Move c x c' n node) {m : RaftServer} {r : RaftReplicator}
    (hr : (c'.node m).replicator = some r) : r.snapshot.status = .LEADER := by
  by_cases hmn : m = n
  · subst hmn
    rw [h.self] at hr
    rcases hm.replicator hr with ⟨r0, hr0, hsnap, -⟩ | ⟨hl, hsnap, -⟩
    · rw [hsnap]
      exact h.recalled.snapshots m r0 hr0
    · rw [hsnap]
      exact hl
  · rw [h.other hmn] at hr
    exact h.recalled.snapshots m r hr

/-- What is remembered stays true. -/
theorem recalled_next (h : Advance P members first base c c' n node made) {x : ClusterStep}
    (hm : Move c x c' n node) (hx : c.sendsCurrent x) :
    Recalled (P.next made first.term c') members first base c' where
  elections := h.elections
  written := h.written
  lawful := h.lawful
  unblocked := h.recalled.unblocked
  floor_le := h.floor_le
  tended v := forall_setNode (P := fun _ node => Tended node.state) h.node_eq h.tended_node
    h.recalled.tended v
  ended v := forall_setNode (P := fun _ node => node.state.status = .LEADER →
    base < node.state.journal.logSize - 1 ∧ node.state.journal.termOfLastEntry = node.state.term)
    h.node_eq h.ended_node h.recalled.ended v
  stood_before _ _ _ _ hs := h.stood_before hs
  stood_once _ _ _ _ _ _ hs hs' := h.stood_once hs hs'
  standing _ _ _ _ hs := .inr hs
  asked := h.asked
  backed _ _ _ hv ha := h.backed hv ha
  made_held _ _ _ he := h.made_held he
  held_made _ _ _ hk := h.held_made hk
  voted _ _ _ hk := ⟨(h.held_next hk).2, .inr hk⟩
  keeps := h.keeps
  sent := h.sent hm hx
  snapshots _ _ hr := h.snapshots hm hr

end Advance

/-- A step that keeps the members advances what is remembered. -/
theorem Recalled.advance (h : Recalled P members first base c) {x : ClusterStep}
    (hk : x.KeepsMembers) (hs : c.step x = some c') : ∃ n node made,
      Advance P members first base c c' n node made ∧ Move c x c' n node ∧ Beats c c' n := by
  obtain ⟨n, node, hn, ht, hm⟩ := step_turn (h.elections.steady.running h.elections.named) hk hs
  have hE := h.elections.step hk hs
  obtain ⟨made, hmint, hW⟩ := h.written.turn h.elections hE hn ht
  exact ⟨n, node, made, ⟨h, hn, ht, hmint, hE, hW⟩, hm⟩

/-! ## A new cluster -/

theorem obliterate_fresh {clusterID : RaftClusterID} {nodes : List RaftServer} {startIndex : Int}
    {journal : RaftJournal}
    (h : RaftJournal.obliterate clusterID nodes startIndex = .ok journal) :
    journal.votedFor.empty = true ∧ journal.commitIndex = startIndex := by
  unfold RaftJournal.obliterate RaftJournal.initializeJournal at h
  have hs : startIndex + 1 - 1 = startIndex := by omega
  simp only [hs, if_true, bind, Except.bind, pure, Except.pure] at h
  cases hp : RaftMembers.parse (RaftMembers.toBytes { nodes := nodes, observers := [] }) with
  | none => simp [RaftMembers.ofBytes, hp] at h
  | some m =>
    simp only [RaftMembers.ofBytes, hp, parseVote, if_true, Except.ok.injEq] at h
    subst h
    exact ⟨rfl, rfl⟩

/-- In a new cluster nothing has happened. -/
theorem recalled_created {clusterID : RaftClusterID} {nodes : List RaftServer} {startIndex : Int}
    {journal : RaftJournal} (h0 : 0 ≤ startIndex)
    (hnew : RaftJournal.obliterate clusterID nodes startIndex = .ok journal)
    (hnamed : ∀ s ∈ journal.members.nodes, s.empty = false)
    (hblocked : RaftServer.BLOCKED_VOTE ∉ journal.members.nodes) :
    ∃ first, Recalled ⟨(created journal).Holds, fun _ _ => False, fun _ _ _ => False,
        fun _ _ _ _ => False, fun _ _ _ => False⟩
      journal.members first startIndex (created journal) := by
  obtain ⟨first, hW⟩ := written_created h0 hnew
  have hE := elections_created h0 hnew hnamed
  have hg := RaftJournal.good_obliterate h0 hnew
  have hvote := (obliterate_fresh hnew).1
  have hlast : journal.termOfLastEntry = first.term := by
    rcases (hW.logs {}).last (hE.steady.sound {}).journal_good (hE.steady.fixed {}).base_le
      (hW.at_base {}) with ⟨-, hlast⟩ | ⟨_, _, hmade, -⟩
    · exact hlast
    · exact hmade.elim
  have hno : ∀ v T a, ¬ (created journal).Holds v T a := by
    rintro v T a ⟨-, rfl, hne⟩
    have hne : journal.votedFor.empty = false := hne
    rw [hvote] at hne
    cases hne
  refine ⟨first, {
    elections := hE
    written := hW
    lawful := ⟨hW.single, ?_, ?_, ?_, ?_, ?_, ?_, ?_, ?_⟩
    unblocked := hblocked
    floor_le := fun n => le_trans (le_of_eq hlast.symm) hg.last_le
    tended := fun n => ⟨fun hl => (by cases hl), fun hl => (by cases hl)⟩
    ended := fun n hl => by cases hl
    stood_before := fun _ _ _ _ h => h.elim
    stood_once := fun _ _ _ _ _ _ h => h.elim
    standing := fun n _ _ _ hs => by cases hs.1
    asked := fun m hm => by cases hm
    backed := fun v T a hv => absurd hv (hno v T a)
    made_held := fun _ _ _ h => h.elim
    held_made := fun _ _ _ h => h.elim
    voted := ?_
    keeps := fun _ _ _ _ h => h.elim
    sent := fun m hm => by cases hm
    snapshots := fun n r hr => by cases hr }⟩
  · exact fun _ _ _ h => h.elim
  · exact fun _ _ _ h => h.elim
  · exact fun _ _ _ h => h.elim
  · exact fun _ _ _ h => h.elim
  · exact fun _ _ _ _ h => h.elim
  · exact fun _ _ _ _ h => h.elim
  · exact fun _ _ _ h => h.elim
  · exact fun v T a hv => absurd hv (hno v T a)
  · rintro v T k ⟨-, ht, -, hlt⟩
    have ht : journal.termOfLastEntry = T := ht
    omega

end Cluster

end quarkdb
