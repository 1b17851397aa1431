-- The journals of a cluster whose members stay as they are: in every run, if two
-- journals have entries of one term at an index, they have the same entries
-- there and at every index below that both still store.
import QuarkDB.ElectionSafety

namespace quarkdb

open RaftJournal (Good)
open RaftState (Later)

/-! ## One journal -/

section

variable {L L' : Int → Int → RaftEntry → Prop} {base : Int} {j j' : RaftJournal}

/-- Each entry of the journal above the base was made for the one below it. -/
abbrev Recorded (L : Int → Int → RaftEntry → Prop) (base : Int) (j : RaftJournal) : Prop :=
  Chains.Chained RaftEntry.term L base j.db.entries

theorem Recorded.withEntry (h : Recorded L base j) (hg : Good j) {entry : RaftEntry} {p : Int}
    (hL : L j.logSize p entry)
    (hbelow : ∀ below, j.db.entries (j.logSize - 1) = some below → below.term = p) :
    Recorded L base (j.withEntry entry) :=
  h.snoc (fun _ hi => RaftDispatcher.none_of_size_le hg hi) hL hbelow

theorem Recorded.appended (h : Recorded L base j) (hg : Good j) {entries : List RaftEntry}
    (ha : RaftDispatcher.Appended j entries j') {p : Int}
    (hs : Chains.Segment RaftEntry.term L j.logSize p entries)
    (hbelow : ∀ below, j.db.entries (j.logSize - 1) = some below → below.term = p) :
    Recorded L base j' := by
  induction ha generalizing p with
  | nil j => exact h
  | @cons j j1 j' entry rest htk ht hl _ ih =>
    obtain ⟨f1, f2, -, -, f5, f6, -, -⟩ := RaftJournal.takes_frame htk
    have hg1 := RaftJournal.good_takes htk hg
    have hg' : Good (j1.withEntry entry) :=
      RaftJournal.good_withEntry hg1 (by rw [f5]; exact ht) (by rw [f6]; exact hl)
    have h1 : Recorded L base j1 := by
      unfold Recorded
      rw [f1]
      exact h
    rw [← f2] at hs hbelow
    rw [← f1] at hbelow
    have hsize : (j1.withEntry entry).logSize = j1.logSize + 1 := rfl
    refine ih (h1.withEntry hg1 hs.1 hbelow) hg' (p := entry.term) ?_ fun below hb => ?_
    · rw [hsize]
      exact hs.2
    · rw [hsize, RaftJournal.withEntry_entries, if_pos (by omega)] at hb
      cases hb
      rfl

/-- What entries that come in leave is made for what is below it, if they were. -/
theorem Recorded.receive (h : Recorded L base j) (hg : Good j) (lastApplied : Int)
    {req : RaftAppendEntriesRequest}
    (hs : Chains.Segment RaftEntry.term L (req.prevIndex + 1) req.prevTerm req.entries) :
    Recorded L base ((RaftDispatcher.receiveEntries lastApplied req).on j).2 := by
  obtain ⟨j2, hc, -, rfl | ⟨first, j1, k, hm, hf, -, hcut, happ⟩⟩ :=
    RaftDispatcher.receiveEntries_leaves hg lastApplied req
  · exact h.of_subset hc.trims.entries
  obtain ⟨hp1, hp2, prev, hprev, hpt⟩ := RaftDispatcher.matchEntries_true hg hm
  obtain ⟨first', hf', c1, c2, c3, c4, -⟩ :=
    RaftDispatcher.compareEntries_spec hg req.entries hp1 hp2
  rw [hf] at hf'
  cases hf'
  obtain ⟨g1, g2, g3, -, -, -⟩ := hcut.cutOff hg
  obtain ⟨d, hd⟩ : ∃ d : Nat, first - (req.prevIndex + 1) = d :=
    ⟨(first - (req.prevIndex + 1)).toNat, by omega⟩
  obtain ⟨q, hseg, hq0, hq⟩ := hs.drop d
  have hsize : j1.logSize = req.prevIndex + 1 + d := by rw [g2]; omega
  have h1 : Recorded L base j1 := by
    refine h.of_subset fun i e he => ?_
    rw [g3] at he
    split at he
    · cases he
    · exact he
  rw [hd, Int.toNat_natCast] at happ
  have h2 : Recorded L base j2 := by
    refine h1.appended g1 happ (p := q) (by rw [hsize]; exact hseg.take k) fun below hb => ?_
    rw [g3, if_neg (by omega), g2] at hb
    cases d with
    | zero =>
      -- Right after the entry that the sender named.
      have he : first - 1 = req.prevIndex := by omega
      rw [he, hprev] at hb
      cases hb
      exact hpt.trans (hq0 rfl).symm
    | succ d =>
      -- After an entry that the sender and this journal have in common.
      have hmem := c4 (first - 1) (by omega) (by omega)
      rw [hb] at hmem
      have hidx : (first - 1 - (req.prevIndex + 1)).toNat = d := by omega
      rw [hidx] at hmem
      exact hq below (Nat.succ_pos d) (by simpa using hmem.symm)
  exact h2.of_subset hc.trims.entries

/-- The entry at the base is the one that the journal was created with. -/
theorem receive_base (hg : Good j) (hb : base ≤ j.logStart) (lastApplied : Int)
    {req : RaftAppendEntriesRequest} {e : RaftEntry}
    (he : ((RaftDispatcher.receiveEntries lastApplied req).on j).2.db.entries base = some e) :
    j.db.entries base = some e := by
  obtain ⟨j2, hc, -, rfl | ⟨first, j1, k, hm, hf, -, hcut, happ⟩⟩ :=
    RaftDispatcher.receiveEntries_leaves hg lastApplied req
  · exact hc.trims.entries base e he
  obtain ⟨hp1, hp2, -⟩ := RaftDispatcher.matchEntries_true hg hm
  obtain ⟨first', hf', c1, -⟩ := RaftDispatcher.compareEntries_spec hg req.entries hp1 hp2
  rw [hf] at hf'
  cases hf'
  obtain ⟨g1, g2, g3, -, -, -⟩ := hcut.cutOff hg
  have he := hc.trims.entries base e he
  rw [(happ.extends g1).entries_eq, if_neg (by omega), g3, if_neg (by omega)] at he
  exact he

theorem dense_entries (hg : Good j) : Chains.Dense j.db.entries := by
  intro i k l hik hkl hi hl
  have h1 := (hg.stored i).mp hi
  have h2 := (hg.stored l).mp hl
  exact (hg.stored k).mpr ⟨by omega, by omega⟩

end

/-! ## The entries of leaders -/

namespace Cluster

/-- Who has led which term, and the entries that leaders made: where, after an entry of
what term. -/
structure History where
  led : Int → RaftServer → Prop
  made : Int → Int → RaftEntry → Prop

/-- What the journals and the append requests rest on. -/
structure Written (V : RaftServer → Int → RaftServer → Prop) (H : History)
    (nodes : List RaftServer) (first : RaftEntry) (base : Int) (c : Cluster) : Prop where
  single : Chains.Single RaftEntry.term H.made
  logs : ∀ n, Recorded H.made base (c.node n).state.journal
  at_base : ∀ n e, (c.node n).state.journal.db.entries base = some e → e = first
  requests : ∀ m ∈ c.appendRequests,
    Chains.Segment RaftEntry.term H.made (m.2.prevIndex + 1) m.2.prevTerm m.2.entries
  elected : ∀ T a, H.led T a → Ballots.Elected V nodes T a
  past : ∀ T a, H.led T a → T ≤ (c.node a).state.term ∧ (T = (c.node a).state.term →
    (c.node a).state.votedFor.empty = false ∧ (c.node a).state.status ≠ .CANDIDATE)
  leading : ∀ n, (c.node n).state.status = .LEADER → H.led (c.node n).state.term n
  makers : ∀ i p e, H.made i p e → ∃ a, H.led e.term a ∧
    ((c.node a).state.status = .LEADER → (c.node a).state.term = e.term →
      i < (c.node a).state.journal.logSize)

/-- The history after a step: leaders are recorded, and what they made. -/
def History.next (H : History) (made : Int → Int → RaftEntry → Prop) (c : Cluster) : History where
  led T a := H.led T a ∨ (c.node a).state.status = .LEADER ∧ (c.node a).state.term = T
  made := made

variable {members : RaftMembers} {base : Int} {c c' : Cluster} {n : RaftServer} {node : RaftNode}
  {V : RaftServer → Int → RaftServer → Prop} {H : History} {first : RaftEntry}

/-- A node that has led a term is no candidate in it again. -/
theorem Written.not_candidate (hW : Written V H members.nodes first base c) {s0 : RaftState}
    (hc : Later (c.node n).state s0) (hst : s0.status = .CANDIDATE) : ¬ H.led s0.term n := by
  intro hled
  obtain ⟨hle, hpast⟩ := hW.past _ _ hled
  have hterm := hc.term
  obtain ⟨hv, hns⟩ := hpast (by omega)
  exact hns (hc.candidate (by omega) hv hst)

/-- Two leaders of one term, at any times, are one node. -/
theorem Written.led_unique (hW : Written V H members.nodes first base c) (hp : Polled V c)
    {T : Int} {a b : RaftServer} (ha : H.led T a) (hb : Ballots.Elected V members.nodes T b) :
    a = b := Ballots.elected_unique hp.once (hW.elected T a ha) hb

/-- A leader after its turn led before, with a log no longer, or has just ascended. -/
theorem Turn.leader_before (ht : Turn c c' n node) (hl : node.state.status = .LEADER) :
    ((c.node n).state.status = .LEADER ∧ node.state.term = (c.node n).state.term ∧
      (c.node n).state.journal.logSize ≤ node.state.journal.logSize) ∨
    Ascends (c.node n).state node.state node.state.term := by
  cases ht with
  | calm hc =>
    obtain ⟨h1, h2⟩ := hc.calm.leads hl
    exact .inl ⟨h1, h2, le_of_eq hc.calm.journal.size_eq.symm⟩
  | candidacy hc =>
    rw [hc.candidacy.status] at hl
    cases hl
  | ascent _ _ _ has _ _ _ _ hs =>
    rw [has.term_eq, has.in_term]
    exact .inr hs
  | append hl' _ _ _ hn =>
    rw [hn]
    refine .inl ⟨hl', rfl, ?_⟩
    show _ ≤ (c.node n).state.journal.logSize + 1
    omega
  | @receive s0 _ _ _ hc _ hlead hne hn =>
    rw [hn] at hl
    have hl : s0.status = .LEADER := hl
    exact absurd (hlead.symm.trans (hc.quiet.calm.sound.leader_self hl)) hne

/-- The makers of old entries stay ahead of them. -/
theorem Written.makers_turn (hW : Written V H members.nodes first base c)
    (hn : c'.node = (c.setNode n node).node) (ht : Turn c c' n node) {i p : Int} {e : RaftEntry}
    (hm : H.made i p e) : ∃ a, H.led e.term a ∧
      ((c'.node a).state.status = .LEADER → (c'.node a).state.term = e.term →
        i < (c'.node a).state.journal.logSize) := by
  obtain ⟨a, hled, hahead⟩ := hW.makers i p e hm
  refine ⟨a, hled, ?_⟩
  have hnode : c'.node a = if a = n then node else c.node a := by rw [hn]; rfl
  rw [hnode]
  by_cases han : a = n
  · subst han
    rw [if_pos rfl]
    intro hl hterm
    rcases ht.leader_before hl with ⟨h1, h2, h3⟩ | hs
    · have hlt := hahead h1 (h2.symm.trans hterm)
      omega
    · have hnot := hW.not_candidate (RaftState.later_self _) hs.was_candidate
      rw [hs.in_term, hterm] at hnot
      exact absurd hled hnot
  · rw [if_neg han]
    exact hahead

/-- After a step, from what was made by then. -/
theorem Written.next (hW : Written V H members.nodes first base c)
    (hl : ∀ m, Later (c.node m).state (c'.node m).state)
    (hE : Elections (cast V c') members base c') {made : Int → Int → RaftEntry → Prop}
    (hsingle : Chains.Single RaftEntry.term made)
    (hlogs : ∀ m, Recorded made base (c'.node m).state.journal)
    (hbase : ∀ m e, (c'.node m).state.journal.db.entries base = some e → e = first)
    (hreq : ∀ m ∈ c'.appendRequests,
      Chains.Segment RaftEntry.term made (m.2.prevIndex + 1) m.2.prevTerm m.2.entries)
    (hmakers : ∀ i p e, made i p e → ∃ a, (H.next made c').led e.term a ∧
      ((c'.node a).state.status = .LEADER → (c'.node a).state.term = e.term →
        i < (c'.node a).state.journal.logSize)) :
    Written (cast V c') (H.next made c') members.nodes first base c' := by
  refine ⟨hsingle, hlogs, hbase, hreq, ?_, ?_, fun m hm => .inr ⟨hm, rfl⟩, hmakers⟩
  · rintro T a (hled | ⟨hst, rfl⟩)
    · exact (hW.elected T a hled).mono fun _ _ _ => .inl
    · exact hE.backed.leaders a hst
  · rintro T a (hled | ⟨hst, rfl⟩)
    · obtain ⟨hle, hpast⟩ := hW.past T a hled
      have hterm := (hl a).term
      refine ⟨le_trans hle hterm, fun ht => ?_⟩
      obtain ⟨hv, hns⟩ := hpast (by omega)
      have hsame := (hl a).vote (by omega) hv
      exact ⟨by rw [hsame]; exact hv, fun hc => hns ((hl a).candidate (by omega) hv hc)⟩
    · refine ⟨le_refl _, fun _ => ⟨?_, by rw [hst]; decide⟩⟩
      rw [(hE.steady.sound a).voted_self (.inr hst), hE.steady.myself]
      exact hE.named a (hE.steady.active a (by rw [hst]; decide))

/-- A step in which no entry is made. -/
theorem Written.unchanged (hW : Written V H members.nodes first base c)
    (hE : Elections V members base c) (hE' : Elections (cast V c') members base c')
    (hn : c'.node = (c.setNode n node).node) (ht : Turn c c' n node)
    (hlog : Recorded H.made base node.state.journal)
    (hb : ∀ e, node.state.journal.db.entries base = some e → e = first)
    (hreq : ∀ m ∈ c'.appendRequests,
      Chains.Segment RaftEntry.term H.made (m.2.prevIndex + 1) m.2.prevTerm m.2.entries) :
    Written (cast V c') (H.next H.made c') members.nodes first base c' := by
  refine hW.next (later_of_turn hE.steady.sound hn ht) hE' hW.single ?_ ?_ hreq ?_
  · exact forall_setNode (P := fun _ node => Recorded H.made base node.state.journal) hn hlog hW.logs
  · exact forall_setNode
      (P := fun _ node => ∀ e, node.state.journal.db.entries base = some e → e = first)
      hn hb hW.at_base
  · intro i p e hm
    obtain ⟨a, hled, hahead⟩ := hW.makers_turn hn ht hm
    exact ⟨a, .inl hled, hahead⟩

/-- What was made, and one entry more. -/
def minted (made : Int → Int → RaftEntry → Prop) (index prevTerm : Int) (entry : RaftEntry) :
    Int → Int → RaftEntry → Prop :=
  fun i p e => made i p e ∨ i = index ∧ p = prevTerm ∧ e = entry

/-- The step of a node makes no entry, or one at the end of the log of a leader, above all that
were made in its term. -/
inductive Minting (made : Int → Int → RaftEntry → Prop) (s s' : RaftState) :
    (Int → Int → RaftEntry → Prop) → Prop
  | nothing : Minting made s s' made
  | entry {j0 : RaftJournal} {entry : RaftEntry} (hj : Trims s.journal j0)
      (hnode : s'.journal = j0.withEntry entry) (hl : s'.status = .LEADER)
      (hterm : entry.term = s'.term)
      (hfresh : ∀ i p e, made i p e → e.term = entry.term → i < j0.logSize)
      (hne : entry.request ≠ []) :
      Minting made s s' (minted made j0.logSize j0.termOfLastEntry entry)

theorem Minting.subset {made made' : Int → Int → RaftEntry → Prop} {s s' : RaftState}
    (h : Minting made s s' made') : ∀ i p e, made i p e → made' i p e := by
  cases h with
  | nothing => exact fun _ _ _ => id
  | entry => exact fun _ _ _ => .inl

/-- A step in which a leader makes an entry. -/
theorem Written.mint (hW : Written V H members.nodes first base c)
    (hE : Elections V members base c) (hE' : Elections (cast V c') members base c')
    (hn : c'.node = (c.setNode n node).node) (ht : Turn c c' n node)
    (ha : c'.appendRequests = c.appendRequests) {j0 : RaftJournal} {entry : RaftEntry}
    (hj : Trims (c.node n).state.journal j0) (hnode : node.state.journal = j0.withEntry entry)
    (hl : node.state.status = .LEADER) (hterm : entry.term = node.state.term)
    (hfresh : ∀ i p e, H.made i p e → e.term = entry.term → i < j0.logSize) :
    Written (cast V c') (H.next (minted H.made j0.logSize j0.termOfLastEntry entry) c')
      members.nodes first base c' := by
  have hsub : ∀ i p e, H.made i p e → minted H.made j0.logSize j0.termOfLastEntry entry i p e :=
    fun i p e h => .inl h
  have hself : c'.node n = node := by rw [hn]; exact if_pos rfl
  have hgood := hj.good
  have hstart := (hE.steady.fixed n).base_le
  have hbound := hgood.start_le_commit
  have hsize := hgood.commit_lt_size
  have hle := hj.start_le
  refine hW.next (later_of_turn hE.steady.sound hn ht) hE' ?_ ?_ ?_ ?_ ?_
  · rintro i p p' e e' (h | ⟨rfl, rfl, rfl⟩) (h' | ⟨hi, rfl, rfl⟩) ht
    · exact hW.single i p p' e e' h h' ht
    · exact absurd (hfresh i p e h ht) (by omega)
    · exact absurd (hfresh j0.logSize p' e' h' ht.symm) (by omega)
    · exact ⟨rfl, rfl⟩
  · refine forall_setNode (P := fun _ node => Recorded _ base node.state.journal) hn ?_
      fun m => (hW.logs m).mono hsub
    rw [hnode]
    have hold : Recorded (minted H.made j0.logSize j0.termOfLastEntry entry) base j0 :=
      ((hW.logs n).of_subset hj.entries).mono hsub
    refine hold.withEntry hgood (.inr ⟨rfl, rfl, rfl⟩) fun below hb => ?_
    obtain ⟨last, hlast, hlt⟩ := hgood.last
    rw [hlast] at hb
    cases hb
    exact hlt
  · refine forall_setNode
      (P := fun _ node => ∀ e, node.state.journal.db.entries base = some e → e = first)
      hn (fun e he => ?_) hW.at_base
    rw [hnode, RaftJournal.withEntry_entries, if_neg (by omega)] at he
    exact hW.at_base n e (hj.entries base e he)
  · intro m hm
    rw [ha] at hm
    exact (hW.requests m hm).mono hsub
  · rintro i p e (hm | ⟨rfl, rfl, rfl⟩)
    · obtain ⟨a, hled, hahead⟩ := hW.makers_turn hn ht hm
      exact ⟨a, .inl hled, hahead⟩
    · refine ⟨n, .inr ⟨by rw [hself]; exact hl, by rw [hself, hterm]⟩, fun _ _ => ?_⟩
      rw [hself, hnode]
      show j0.logSize < j0.logSize + 1
      omega

/-- What a step leaves of the history: it only grows. -/
theorem Written.turn (hW : Written V H members.nodes first base c)
    (hE : Elections V members base c) (hE' : Elections (cast V c') members base c')
    (hn : c'.node = (c.setNode n node).node) (ht : Turn c c' n node) :
    ∃ made, Minting H.made (c.node n).state node.state made ∧
      Written (cast V c') (H.next made c') members.nodes first base c' := by
  have hold : ∀ m, m ∈ c.appendRequests →
      Chains.Segment RaftEntry.term H.made (m.2.prevIndex + 1) m.2.prevTerm m.2.entries :=
    hW.requests
  have hturn := ht
  cases ht with
  | calm hc _ _ ha =>
    refine ⟨_, .nothing, hW.unchanged hE hE' hn hturn
      ((hW.logs n).of_subset hc.calm.journal.entries)
      (fun e he => hW.at_base n e (hc.calm.journal.entries base e he)) fun m hm => ?_⟩
    rcases ha m hm with hm | ⟨_, nextIndex, _, _, hp⟩
    · exact hold m hm
    · obtain ⟨hprev, ⟨previous, hf, hpt⟩, hall⟩ := RaftReplicaTracker.sendPayload_some hp
      have hbase := (hE.steady.fixed n).base_le
      have hstored :=
        ((hE.steady.sound n).journal_good.stored (nextIndex - 1)).mp (by rw [hf]; rfl)
      have hi : m.2.prevIndex + 1 = nextIndex := by omega
      rw [hi]
      exact (hW.logs n).segment (by omega) ⟨previous, hf, hpt⟩ hall
  | candidacy hc _ _ ha =>
    exact ⟨_, .nothing, hW.unchanged hE hE' hn hturn
      ((hW.logs n).of_subset hc.candidacy.journal.entries)
      (fun e he => hW.at_base n e (hc.candidacy.journal.entries base e he))
      fun m hm => hold m (by rwa [ha] at hm)⟩
  | @ascent s0 el he hc hout has _ _ ha =>
    have hfresh : ∀ i p e, H.made i p e →
        e.term = (leadershipMarker el.req.term s0.myself).term → i < s0.journal.logSize := by
      intro i p e hm hterm
      -- No entry of this term was made: its maker would be this node, which was a candidate.
      obtain ⟨a, hled, -⟩ := hW.makers _ _ _ hm
      rw [hterm] at hled
      have hwon := (hE.backed.rounds n el he).elected hE.nodup hout
      have han : a = n := hW.led_unique hE.polled hled hwon
      subst han
      have hnot := hW.not_candidate hc.later has.was_candidate
      rw [has.in_term] at hnot
      exact absurd hled hnot
    have hterm : (leadershipMarker el.req.term s0.myself).term = node.state.term :=
      has.in_term.symm.trans has.term_eq.symm
    exact ⟨_, .entry hc.journal has.journal has.status hterm hfresh (by simp [leadershipMarker]),
      hW.mint hE hE' hn hturn ha hc.journal has.journal has.status hterm hfresh⟩
  | @append entry hl hterm _ _ hn' _ ha _ hne =>
    have hnode : node.state.journal = (c.node n).state.journal.withEntry entry := by rw [hn']; rfl
    have hgood := (hE.steady.sound n).journal_good
    have hl' : node.state.status = .LEADER := by rw [hn']; exact hl
    have hterm' : entry.term = node.state.term := by rw [hn']; exact hterm
    have hfresh : ∀ i p e, H.made i p e → e.term = entry.term →
        i < (c.node n).state.journal.logSize := by
      intro i p e hm he
      -- The maker of an entry of this term is this leader, whose log is longer.
      obtain ⟨a, hled, hahead⟩ := hW.makers _ _ _ hm
      rw [he, hterm] at hled
      have han : a = n := hW.led_unique hE.polled hled (hE.backed.leaders n hl)
      subst han
      exact hahead hl (hterm.symm.trans he.symm)
    exact ⟨_, .entry (trims_self hgood) hnode hl' hterm' hfresh hne,
      hW.mint hE hE' hn hturn ha (trims_self hgood) hnode hl' hterm' hfresh⟩
  | @receive s0 req lastApplied hr hc _ _ _ hn' _ ha =>
    have hb := le_trans (hE.steady.fixed n).base_le hc.quiet.calm.journal.start_le
    refine ⟨_, .nothing,
      hW.unchanged hE hE' hn hturn ?_ ?_ fun m hm => hold m (by rwa [ha] at hm)⟩
    · rw [hn']
      exact Recorded.receive ((hW.logs n).of_subset hc.quiet.calm.journal.entries)
        hc.quiet.calm.sound.journal_good lastApplied (hold _ hr)
    · intro e he
      rw [hn'] at he
      exact hW.at_base n e (hc.quiet.calm.journal.entries base e
        (receive_base hc.quiet.calm.sound.journal_good hb lastApplied he))

/-! ## Runs -/

theorem Written.run (hW : Written V H members.nodes first base c)
    (hE : Elections V members base c) {steps : List ClusterStep}
    (hx : ∀ x ∈ steps, x.KeepsMembers) (hr : c.runAll steps = some c') :
    ∃ V' : RaftServer → Int → RaftServer → Prop, ∃ H' : History,
      (∀ i p e, H.made i p e → H'.made i p e) ∧ Elections V' members base c' ∧
      Written V' H' members.nodes first base c' := by
  induction steps generalizing c V H with
  | nil =>
    obtain rfl : c = c' := by simpa [runAll] using hr
    exact ⟨V, H, fun _ _ _ => id, hE, hW⟩
  | cons x xs ih =>
    obtain ⟨c1, h1, hr⟩ := Option.bind_eq_some_iff.mp hr
    obtain ⟨n, node, hn, ht, -⟩ := step_turn (hE.steady.running hE.named) (hx x (by simp)) h1
    have hE1 := hE.step (hx x (by simp)) h1
    obtain ⟨made, hmint, hW1⟩ := hW.turn hE hE1 hn ht
    obtain ⟨V', H', hsub, hE', hW'⟩ := ih hW1 hE1 (fun y hy => hx y (by simp [hy])) hr
    exact ⟨V', H', fun i p e hm => hsub i p e (hmint.subset i p e hm), hE', hW'⟩

theorem written_created {clusterID : RaftClusterID} {nodes : List RaftServer} {startIndex : Int}
    {journal : RaftJournal} (h0 : 0 ≤ startIndex)
    (hnew : RaftJournal.obliterate clusterID nodes startIndex = .ok journal) :
    ∃ first, Written (created journal).Holds ⟨fun _ _ => False, fun _ _ _ => False⟩
      journal.members.nodes first startIndex (created journal) := by
  have hg := RaftJournal.good_obliterate h0 hnew
  have hsize : journal.logSize = startIndex + 1 ∧ journal.logStart = startIndex := by
    unfold RaftJournal.obliterate RaftJournal.initializeJournal at hnew
    have hs : startIndex + 1 - 1 = startIndex := by omega
    simp only [hs, if_true, bind, Except.bind, pure, Except.pure] at hnew
    cases hp : RaftMembers.parse (RaftMembers.toBytes { nodes := nodes, observers := [] }) with
    | none => simp [RaftMembers.ofBytes, hp] at hnew
    | some m =>
      simp only [RaftMembers.ofBytes, hp, parseVote, if_true, Except.ok.injEq] at hnew
      subst hnew
      exact ⟨rfl, rfl⟩
  obtain ⟨first, hfirst⟩ := Option.isSome_iff_exists.mp
    ((hg.stored startIndex).mpr ⟨by omega, by omega⟩)
  refine ⟨first, fun _ _ _ _ _ h => h.elim, fun n i e hi he => ?_, fun n e he => ?_, fun m hm => ?_,
    fun _ _ h => h.elim, fun _ _ h => h.elim, fun n hl => ?_, fun _ _ _ h => h.elim⟩
  · have he : journal.db.entries i = some e := he
    have hs := (hg.stored i).mp (by rw [he]; rfl)
    omega
  · have he : journal.db.entries startIndex = some e := he
    rw [hfirst] at he
    cases he
    rfl
  · cases hm
  · cases hl

/-- In every run with fixed members, of which each has a name, and with writes of clients that are
appended in one step with the check that the node leads: if the journals of two nodes, at any two
points of the run, have entries of the same term at an index, they have the same entry there, and
the same entries at every lower index that both still store. -/
theorem journals_agree_below_a_common_term {clusterID : RaftClusterID} {nodes : List RaftServer}
    {startIndex : Int} {journal : RaftJournal} (h0 : 0 ≤ startIndex)
    (hnew : RaftJournal.obliterate clusterID nodes startIndex = .ok journal)
    (hnamed : ∀ s ∈ journal.members.nodes, s.empty = false)
    {steps more : List ClusterStep} {c c' : Cluster}
    (hsteps : ∀ x ∈ steps, x.KeepsMembers) (hmore : ∀ x ∈ more, x.KeepsMembers)
    (hc : (created journal).runAll steps = some c) (hc' : c.runAll more = some c')
    {n m : RaftServer} {i : Int} {e e' : RaftEntry}
    (he : (c.node n).state.journal.fetch i = some e)
    (he' : (c'.node m).state.journal.fetch i = some e') (ht : e.term = e'.term) :
    ∀ k ≤ i, ∀ f f', (c.node n).state.journal.fetch k = some f →
      (c'.node m).state.journal.fetch k = some f' → f = f' := by
  obtain ⟨first, hW⟩ := written_created h0 hnew
  obtain ⟨V, H, -, hE, hW⟩ := hW.run (elections_created h0 hnew hnamed) hsteps hc
  obtain ⟨V', H', hsub, hE', hW'⟩ := hW.run hE hmore hc'
  intro k hk f f' hf hf'
  have hbase : ∀ i e e', i ≤ startIndex → (c.node n).state.journal.db.entries i = some e →
      (c'.node m).state.journal.db.entries i = some e' → e = e' := by
    intro i e e' hi he he'
    have hs := ((hE.steady.sound n).journal_good.stored i).mp (by rw [he]; rfl)
    have hb := (hE.steady.fixed n).base_le
    obtain rfl : i = startIndex := by omega
    rw [hW.at_base n e he, hW'.at_base m e' he']
  have hagree := ((hW.logs n).mono hsub).agree hW'.single (hW'.logs m)
    (dense_entries (hE.steady.sound n).journal_good)
    (dense_entries (hE'.steady.sound m).journal_good) hbase he he' ht hk
    (by rw [show (c.node n).state.journal.db.entries k = some f from hf]; rfl)
    (by rw [show (c'.node m).state.journal.db.entries k = some f' from hf']; rfl)
  have hff : some f = some f' := hf.symm.trans (hagree.trans hf')
  exact Option.some.inj hff

/-- The second node takes the marker of the first, after a payload that did not match. -/
theorem a_follower_has_what_its_leader_has :
    ∃ new c c', RaftJournal.obliterate (ascii "id")
        [⟨ascii "s1", 7776⟩, ⟨ascii "s2", 7776⟩, ⟨ascii "s3", 7776⟩] 0 = .ok new ∧
      (created new).runAll [.runForLeader ⟨ascii "s1", 7776⟩, .requestVote 0,
        .registerVote ⟨ascii "s1", 7776⟩ 0, .concludeElection ⟨ascii "s1", 7776⟩,
        .activate ⟨ascii "s1", 7776⟩,
        .clientAppend ⟨ascii "s1", 7776⟩ [ascii "SET", ascii "k", ascii "v"]] = some c ∧
      c.runAll [.checkSnapshot ⟨ascii "s1", 7776⟩ ⟨ascii "s2", 7776⟩,
        .sendPayload ⟨ascii "s1", 7776⟩ ⟨ascii "s2", 7776⟩, .appendEntries 0 0,
        .retrieve ⟨ascii "s1", 7776⟩ ⟨ascii "s2", 7776⟩ 0,
        .checkSnapshot ⟨ascii "s1", 7776⟩ ⟨ascii "s2", 7776⟩,
        .sendPayload ⟨ascii "s1", 7776⟩ ⟨ascii "s2", 7776⟩, .appendEntries 1 0] = some c' ∧
      (c'.node ⟨ascii "s2", 7776⟩).state.journal.logSize = 2 ∧
      ∀ k ≤ 1, ∀ f f', (c.node ⟨ascii "s1", 7776⟩).state.journal.fetch k = some f →
        (c'.node ⟨ascii "s2", 7776⟩).state.journal.fetch k = some f' → f = f' := by
  have hrun : ((RaftJournal.obliterate (ascii "id")
        [⟨ascii "s1", 7776⟩, ⟨ascii "s2", 7776⟩, ⟨ascii "s3", 7776⟩] 0).toOption.bind fun new =>
      ((created new).runAll [.runForLeader ⟨ascii "s1", 7776⟩, .requestVote 0,
        .registerVote ⟨ascii "s1", 7776⟩ 0, .concludeElection ⟨ascii "s1", 7776⟩,
        .activate ⟨ascii "s1", 7776⟩,
        .clientAppend ⟨ascii "s1", 7776⟩ [ascii "SET", ascii "k", ascii "v"]]).bind fun c =>
      (c.runAll [.checkSnapshot ⟨ascii "s1", 7776⟩ ⟨ascii "s2", 7776⟩,
        .sendPayload ⟨ascii "s1", 7776⟩ ⟨ascii "s2", 7776⟩, .appendEntries 0 0,
        .retrieve ⟨ascii "s1", 7776⟩ ⟨ascii "s2", 7776⟩ 0,
        .checkSnapshot ⟨ascii "s1", 7776⟩ ⟨ascii "s2", 7776⟩,
        .sendPayload ⟨ascii "s1", 7776⟩ ⟨ascii "s2", 7776⟩, .appendEntries 1 0]).map fun c' =>
      (new.members.nodes.any RaftServer.empty,
        (c'.node ⟨ascii "s2", 7776⟩).state.journal.logSize,
        ((c.node ⟨ascii "s1", 7776⟩).state.journal.fetch 1).map RaftEntry.term,
        ((c'.node ⟨ascii "s2", 7776⟩).state.journal.fetch 1).map RaftEntry.term)) =
      some (false, 2, some 1, some 1) := by decide +kernel
  obtain ⟨new, hnew, hrun⟩ := Option.bind_eq_some_iff.mp hrun
  obtain ⟨c, hc, hrun⟩ := Option.bind_eq_some_iff.mp hrun
  obtain ⟨c', hc', hrun⟩ := Option.map_eq_some_iff.mp hrun
  simp only [Prod.mk.injEq] at hrun
  obtain ⟨hnamed, hsize, he, he'⟩ := hrun
  obtain ⟨e, he, ht⟩ := Option.map_eq_some_iff.mp he
  obtain ⟨e', he', ht'⟩ := Option.map_eq_some_iff.mp he'
  have hnew : RaftJournal.obliterate (ascii "id")
      [⟨ascii "s1", 7776⟩, ⟨ascii "s2", 7776⟩, ⟨ascii "s3", 7776⟩] 0 = .ok new := by
    cases hj : RaftJournal.obliterate (ascii "id")
      [⟨ascii "s1", 7776⟩, ⟨ascii "s2", 7776⟩, ⟨ascii "s3", 7776⟩] 0 with
    | error e => simp [hj, Except.toOption] at hnew
    | ok j => simpa [hj, Except.toOption] using hnew
  refine ⟨new, c, c', hnew, hc, hc', hsize, ?_⟩
  exact journals_agree_below_a_common_term (le_refl 0) hnew (by simpa using hnamed)
    (by simp [ClusterStep.KeepsMembers]) (by simp [ClusterStep.KeepsMembers]) hc hc' he he'
    (ht.trans ht'.symm)

end Cluster

end quarkdb
