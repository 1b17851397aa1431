-- What a leader can tell of the log of a target from the answers to its requests: the
-- first that the target accepts in a term leaves its log with an end that lies below the
-- entries of the leader, so that nothing else can become committed.
import QuarkDB.LawfulRuns

namespace quarkdb

open RaftJournal (Good)
open RaftState (Later)
open Chains (Made Over Path)

/-! ## Answers -/

namespace RaftDispatcher

/-- A node that is up answers with a later term, or took the request for one of its leader. -/
theorem appendEntries_replies {lastApplied : Int} {req : RaftAppendEntriesRequest} {s : RaftState}
    {resp : RaftAppendEntriesResponse}
    (hup : (s.observed req.term req.leader).2.status ≠ .SHUTDOWN)
    (h : ((appendEntries lastApplied req).on s).1 = .ok resp) : req.term < resp.term ∨
    (s.observed req.term req.leader).2.term = req.term ∧ resp.term = req.term ∧
      ∃ j', ((appendEntries lastApplied req).on s).2 =
          { (s.observed req.term req.leader).2 with journal := j' } ∧
        resp.logSize = j'.logSize ∧
        (receiveEntries lastApplied req).on (s.observed req.term req.leader).2.journal =
          (.ok (resp.outcome, resp.err), j') := by
  unfold appendEntries at h ⊢
  simp only [Call.on_bind, heartbeat_on] at h ⊢
  by_cases h1 : req.leader = s.myself
  · rw [if_pos h1] at h
    cases h
  rw [if_neg h1] at h ⊢
  generalize (s.observed req.term req.leader).2 = s' at hup h ⊢
  cases hr : recognize s'.getSnapshot { term := req.term, leader := req.leader } with
  | error e => simp [hr] at h
  | ok answer =>
    simp only [hr] at h ⊢
    cases hn : answer.nodeRecognizedAsLeader with
    | false =>
      left
      have hterm : resp.term = answer.term := by
        simp only [hn, Bool.not_false, if_true] at h
        cases h
        rfl
      rw [hterm]
      unfold recognize at hr
      rw [if_neg (show s'.getSnapshot.status ≠ .SHUTDOWN from hup)] at hr
      split at hr
      · rename_i hlt
        cases hr
        exact hlt
      split at hr
      · cases hr
      split at hr
      · cases hr
      · cases hr
        cases hn
    | true =>
      right
      obtain ⟨hterm, hrec⟩ := recognize_leader hr
      obtain ⟨-, h3, -⟩ := hrec hn
      simp only [hn, Bool.not_true, Bool.false_eq_true, if_false, Call.on_bind, onJournal,
        Call.on_within] at h ⊢
      generalize (receiveEntries lastApplied req).on s'.journal = r at h ⊢
      obtain ⟨r, j⟩ := r
      cases r with
      | error e => cases h
      | ok r =>
        cases h
        exact ⟨h3, hterm.trans h3, j, rfl, rfl, rfl⟩

theorem matchEntries_false {j : RaftJournal} (h : Good j) {index term : Int}
    (hm : j.matchEntries index term = false) : j.logSize ≤ index ∨ index < j.logStart ∨
      ∃ e, j.db.entries index = some e ∧ e.term ≠ term := by
  unfold RaftJournal.matchEntries at hm
  split at hm
  · rename_i hle
    exact .inl hle
  split at hm
  · rename_i e he
    exact .inr (.inr ⟨e, he, by simpa using hm⟩)
  · rename_i hle he
    refine .inr (.inl ?_)
    by_contra hlt
    have hs := (h.stored index).mpr ⟨by omega, by omega⟩
    rw [show j.db.entries index = none from he] at hs
    cases hs

/-- Entries that are not accepted did not follow what the journal has, or some were taken. -/
theorem receiveEntries_refused {j : RaftJournal} (h : Good j) {lastApplied : Int}
    {req : RaftAppendEntriesRequest} {err : Bytes} {j' : RaftJournal}
    (hr : (receiveEntries lastApplied req).on j = (.ok (false, err), j')) :
    (j' = j ∧ j.matchEntries req.prevIndex req.prevTerm = false) ∨
    ∃ first j1 k, j.matchEntries req.prevIndex req.prevTerm = true ∧
      j.compareEntries (req.prevIndex + 1) req.entries = .ok first ∧
      first < req.prevIndex + 1 + req.entries.length ∧ Cut j first j1 ∧
      Appended j1 ((req.entries.drop (first - (req.prevIndex + 1)).toNat).take k) j' := by
  unfold receiveEntries at hr
  cases hm : j.matchEntries req.prevIndex req.prevTerm with
  | false =>
    simp only [Call.on_bind, Call.on_get, hm] at hr
    cases hr
    exact .inl ⟨rfl, rfl⟩
  | true =>
    right
    have hfinish : ∀ j0, Good j0 →
        ((finishReceive req.commitIndex).on j0).1 ≠ .ok (false, err) := by
      intro j0 hg hf
      rw [finishReceive_on hg] at hf
      cases hf
    cases hc : j.compareEntries (req.prevIndex + 1) req.entries with
    | error e => simp [hm, hc] at hr
    | ok first =>
      obtain ⟨hp1, hp2, -⟩ := matchEntries_true h hm
      obtain ⟨first', hf', -, c2, -⟩ := compareEntries_spec h req.entries hp1 hp2
      rw [hc] at hf'
      cases hf'
      by_cases h1 : first - (req.prevIndex + 1) < req.entries.length
      · by_cases h2 : first ≤ j.commitIndex
        · simp [hm, hc, h1, h2] at hr
        by_cases h3 : first ≠ j.logSize ∧ first ≤ lastApplied
        · simp [hm, hc, h1, h2, h3] at hr
        rcases overwrite_cases h (req.entries.drop (first - (req.prevIndex + 1)).toNat) c2 with
          ⟨e, he⟩ | ⟨j1, r, j2, k, hcut, ho, happ, -⟩
        · simp [hm, hc, h1, h2, h3, he] at hr
        · have hg := (happ.extends (hcut.cutOff h).good).good
          match r with
          | .error e => simp [hm, hc, h1, h2, h3, ho] at hr
          | .ok true =>
            refine absurd (congrArg Prod.fst hr) ?_
            have hf := hfinish j2 hg
            simpa [hm, hc, h1, h2, h3, ho, finishReceive] using hf
          | .ok false =>
            have hj : j2 = j' := by simpa [hm, hc, h1, h2, h3, ho] using congrArg Prod.snd hr
            rw [← hj]
            exact ⟨first, j1, k, rfl, rfl, by omega, hcut, happ⟩
      · refine absurd (congrArg Prod.fst hr) ?_
        have hf := hfinish j h
        simpa [hm, hc, h1, finishReceive] using hf

/-- After it was accepted, the journal has what the request carries, after the entry that the
request names. -/
theorem receiveEntries_stored {j : RaftJournal} (h : Good j) {lastApplied : Int}
    {req : RaftAppendEntriesRequest} {err : Bytes} {j' : RaftJournal}
    (hr : (receiveEntries lastApplied req).on j = (.ok (true, err), j')) :
    (∃ e, j.db.entries req.prevIndex = some e ∧ e.term = req.prevTerm) ∧
      ∀ (d : Nat) e, req.entries[d]? = some e → j'.db.entries (req.prevIndex + 1 + d) = some e := by
  refine ⟨?_, fun d e he => ?_⟩
  · rcases receiveEntries_cases lastApplied req j with ⟨r, hr', hne⟩ | ⟨hm, -⟩
    · rw [hr] at hr'
      cases hr'
      exact absurd rfl (hne err)
    · exact (matchEntries_true h hm).2.2
  · obtain ⟨hd, -⟩ := List.getElem?_eq_some_iff.mp he
    have hidx : (req.prevIndex + 1 + (d : Int) - (req.prevIndex + 1)).toNat = d := by omega
    obtain ⟨-, -, ⟨-, hall, rfl⟩ | ⟨first, j1, j2, f1, f2, -, f4, f5, -, hcut, happ, rfl⟩⟩ :=
      receiveEntries_accepted h hr
    · show j.db.entries _ = _
      rw [hall _ (by omega) (by omega), hidx, he]
    · obtain ⟨g1, g2, g3, -⟩ := hcut.cutOff h
      show j2.db.entries _ = _
      rw [(happ.extends g1).entries_eq, g2]
      by_cases hge : first ≤ req.prevIndex + 1 + d
      · rw [if_pos hge, List.getElem?_drop, ← he]
        congr 1
        omega
      · rw [if_neg hge, g3, if_neg hge, f5 _ (by omega) (by omega), hidx, he]

/-- The commit index stays, or the request was accepted and says as much. -/
theorem receiveEntries_commit {j : RaftJournal} (h : Good j) (lastApplied : Int)
    (req : RaftAppendEntriesRequest) :
    ((receiveEntries lastApplied req).on j).2.commitIndex = j.commitIndex ∨
      ((receiveEntries lastApplied req).on j).2.commitIndex ≤ req.commitIndex ∧
        ∃ err, ((receiveEntries lastApplied req).on j).1 = .ok (true, err) := by
  by_cases haccept : ∃ err, ((receiveEntries lastApplied req).on j).1 = .ok (true, err)
  · obtain ⟨err, hok⟩ := haccept
    have hr : (receiveEntries lastApplied req).on j =
        (.ok (true, err), ((receiveEntries lastApplied req).on j).2) := Prod.ext hok rfl
    have hcase := receiveEntries_accepted h hr
    have hmax : ∀ {size : Int}, max j.commitIndex (min (size - 1) req.commitIndex) = j.commitIndex ∨
        max j.commitIndex (min (size - 1) req.commitIndex) ≤ req.commitIndex := by
      intro size
      omega
    obtain ⟨-, -, ⟨-, -, hj⟩ | ⟨first, j1, j2, -, -, -, -, -, -, -, -, hj⟩⟩ := hcase <;>
    · rw [hj]
      exact hmax.imp_right fun hle => ⟨hle, err, hok⟩
  · left
    obtain ⟨j2, -, hsame, hleft⟩ := receiveEntries_leaves h lastApplied req
    rw [hsame fun err hok => haccept ⟨err, hok⟩]
    rcases hleft with rfl | ⟨first, j1, k, -, -, -, hcut, happ⟩
    · rfl
    · have hcutoff := hcut.cutOff h
      exact (happ.extends hcutoff.good).commit_eq.trans hcutoff.commit_eq

end RaftDispatcher

/-! ## The log of a target -/

section

variable {L L' : Int → Int → RaftEntry → Prop} {base : Int} {s s' : RaftState} {T k : Int}

/-- The node has left the term, or its log ends below an entry of the term. -/
def CaughtUp (L : Int → Int → RaftEntry → Prop) (s : RaftState) (T : Int) : Prop :=
  T < s.term ∨ s.term = T ∧
    Path RaftEntry.term L T (s.journal.logSize - 1) s.journal.termOfLastEntry

/-- The log does not reach the index, or has no entry there that lies below the term. -/
def Apart (L : Int → Int → RaftEntry → Prop) (j : RaftJournal) (T k : Int) : Prop :=
  j.logSize ≤ k ∨ ∃ v, Path RaftEntry.term L T k v ∧ ∀ e, j.db.entries k = some e → e.term ≠ v

/-- If the node accepts a request of the term that starts at the index, its log will end below
an entry of the term. -/
def Tested (L : Int → Int → RaftEntry → Prop) (s : RaftState) (T k : Int) : Prop :=
  Made RaftEntry.term L (k - 1) T ∨ CaughtUp L s T ∨
    s.term = T ∧ (Apart L s.journal T k ∨ k ≤ s.journal.logStart)

theorem Apart.trims {j j' : RaftJournal} (h : Apart L j T k) (hL : ∀ i p e, L i p e → L' i p e)
    (ht : Trims j j') : Apart L' j' T k := by
  rcases h with h | ⟨v, hv, hne⟩
  · exact .inl (by rw [ht.size_eq]; exact h)
  · exact .inr ⟨v, hv.mono hL, fun e he => hne e (ht.entries k e he)⟩

theorem CaughtUp.rests (h : CaughtUp L s T) (hg : Good s.journal)
    (hL : ∀ i p e, L i p e → L' i p e) (hl : Later s s') (hr : Cluster.Rests L' s s') :
    CaughtUp L' s' T := by
  have hterm := hl.term
  rcases h with h | ⟨rfl, hpath⟩
  · exact .inl (by omega)
  rcases eq_or_lt_of_le hterm with heq | hlt
  · refine .inr ⟨heq.symm, ?_⟩
    rcases hr.log with htr | hj
    · rw [htr.size_eq, htr.last_eq hg]
      exact hpath.mono hL
    · rw [heq]
      exact hj.path
  · exact .inl hlt

theorem Tested.rests (h : Tested L s T k) (hg : Good s.journal)
    (hL : ∀ i p e, L i p e → L' i p e) (hl : Later s s') (hr : Cluster.Rests L' s s') :
    Tested L' s' T k := by
  rcases h with h | h | ⟨rfl, h⟩
  · exact .inl (h.mono hL)
  · exact .inr (.inl (h.rests hg hL hl hr))
  rcases eq_or_lt_of_le hl.term with heq | hlt
  · rcases hr.log with htr | hj
    · refine .inr (.inr ⟨heq.symm, ?_⟩)
      rcases h with h | h
      · exact .inl (h.trims hL htr)
      · exact .inr (le_trans h htr.start_le)
    · refine .inr (.inl (.inr ⟨heq.symm, ?_⟩))
      rw [heq]
      exact hj.path
  · exact .inr (.inl (.inl hlt))

/-- With an entry of the newest term, the log ends in one of that term. -/
theorem Recorded.path_last {j : RaftJournal} (h : Recorded L base j) (hg : Good j) {i : Int}
    {e : RaftEntry} (he : j.db.entries i = some e) (hi : base < i)
    (hle : j.termOfLastEntry ≤ e.term) : j.termOfLastEntry = e.term ∧
      Path RaftEntry.term L e.term (j.logSize - 1) j.termOfLastEntry := by
  have hlast : j.termOfLastEntry = e.term := le_antisymm hle (RaftJournal.term_le_last hg he)
  have hs := (hg.stored i).mp (by rw [he]; rfl)
  obtain ⟨l, hl, ht⟩ := hg.last
  obtain ⟨p, hp, -⟩ := h (j.logSize - 1) l (by omega) hl
  refine ⟨hlast, ?_⟩
  rw [hlast]
  exact Made.path ⟨p, l, hp, ht.trans hlast⟩

end

section

variable {L : Int → Int → RaftEntry → Prop} {base : Int} {s : RaftState} {lastApplied : Int}
  {req : RaftAppendEntriesRequest} {err : Bytes} {j' : RaftJournal}

/-- A node that accepts a request that was tested has a log that ends below the leader. -/
theorem path_of_accepted (hL : Chains.Single RaftEntry.term L)
    (hu : Chains.Unbroken RaftEntry.term L) (hgr : Chains.Grounded RaftEntry.term base L)
    (h : Recorded L base s.journal) (hs : RaftState.Sound s) (hb : base ≤ s.journal.logStart)
    (ht : s.term = req.term) (hreq : OnPath L req)
    (hseg : Chains.Segment RaftEntry.term L (req.prevIndex + 1) req.prevTerm req.entries)
    (htested : Tested L s req.term (req.prevIndex + 1))
    (hempty : req.entries = [] → Made RaftEntry.term L req.prevIndex req.term)
    (hr : (RaftDispatcher.receiveEntries lastApplied req).on s.journal = (.ok (true, err), j')) :
    Path RaftEntry.term L req.term (j'.logSize - 1) j'.termOfLastEntry := by
  have hg := hs.journal_good
  obtain ⟨⟨prev, hprev, hpt⟩, hstored⟩ := RaftDispatcher.receiveEntries_stored hg hr
  rcases receive_joins hL hu h hg hb lastApplied hreq hseg (congrArg Prod.snd hr) with
    htr | ⟨hpath, -⟩
  swap
  · exact hpath
  -- The log stayed as it was.
  rw [htr.size_eq, htr.last_eq hg]
  have hin := (hg.stored req.prevIndex).mp (by rw [hprev]; rfl)
  have hlast := hg.last_le
  rw [hs.term_eq, ht] at hlast
  have hmade : Made RaftEntry.term L req.prevIndex req.term →
      Path RaftEntry.term L req.term (s.journal.logSize - 1) s.journal.termOfLastEntry := by
    intro hm
    have hterm : prev.term = req.term := hpt.trans (hreq.prev.unique hL hu hm.path)
    obtain ⟨p, e, he, -⟩ := hm
    have hbase := (hgr _ p e he).1
    rw [← hterm] at hlast ⊢
    exact (h.path_last hg hprev hbase hlast).2
  rcases htested with hm | hc | ⟨-, hapart | hstart⟩
  · rw [Int.add_sub_cancel] at hm
    exact hmade hm
  · rcases hc with hlt | ⟨-, hpath⟩
    · omega
    · exact hpath
  · by_cases hsize : s.journal.logSize ≤ req.prevIndex + 1
    · -- The log ends in the entry that the request follows.
      have hend : s.journal.logSize - 1 = req.prevIndex := by omega
      obtain ⟨l, hl, hlt⟩ := hg.last
      rw [hend, hprev] at hl
      cases hl
      rw [hend, ← hlt, hpt]
      exact hreq.prev
    obtain ⟨v, hv, hne⟩ := hapart.resolve_left hsize
    cases hes : req.entries with
    | nil => exact hmade (hempty hes)
    | cons f rest =>
      -- The entry that is not below the leader would be the first of the request.
      have hf : req.entries[0]? = some f := by rw [hes]; rfl
      have hstay := htr.entries _ _ (hstored 0 f hf)
      have hpath := hreq.entries 0 f hf
      rw [Int.natCast_zero, Int.add_zero] at hstay hpath
      exact absurd (hpath.unique hL hu hv) (hne f hstay)
  · omega

/-- When the last entry of what a node accepted is of its term, so is that of its log. -/
theorem last_of_accepted (h : Recorded L base j') (hg : Good s.journal) (hg' : Good j')
    (hb : base ≤ s.journal.logStart) (hle : j'.termOfLastEntry ≤ req.term)
    (hlast : ∀ e, req.entries.getLast? = some e → e.term = req.term)
    (hempty : req.entries = [] → base < req.prevIndex ∧ req.prevTerm = req.term)
    (hr : (RaftDispatcher.receiveEntries lastApplied req).on s.journal = (.ok (true, err), j')) :
    j'.termOfLastEntry = req.term := by
  obtain ⟨⟨prev, hprev, hpt⟩, hstored⟩ := RaftDispatcher.receiveEntries_stored hg hr
  have hin := (hg.stored req.prevIndex).mp (by rw [hprev]; rfl)
  have hends : ∀ i e, base < i → j'.db.entries i = some e → e.term = req.term →
      j'.termOfLastEntry = req.term := by
    intro i e hi he hterm
    exact (h.path_last hg' he hi (by rw [hterm]; exact hle)).1.trans hterm
  cases hget : req.entries.getLast? with
  | some e =>
    have he := hget
    rw [List.getLast?_eq_getElem?] at he
    exact hends _ e (by omega) (hstored _ e he) (hlast e hget)
  | none =>
    have hnil := List.getLast?_eq_none_iff.mp hget
    obtain ⟨hbase, hterm⟩ := hempty hnil
    obtain ⟨-, -, ⟨-, -, rfl⟩ | ⟨first, j1, j2, f1, f2, -⟩⟩ :=
      RaftDispatcher.receiveEntries_accepted hg hr
    · exact hends req.prevIndex prev hbase hprev (hpt.trans hterm)
    · rw [hnil, List.length_nil] at f2
      omega

/-- A node that does not accept a request of its leader tells where its log is apart from that of
the leader, unless it is caught up. -/
theorem tested_of_refused (hL : Chains.Single RaftEntry.term L)
    (hu : Chains.Unbroken RaftEntry.term L) (h : Recorded L base s.journal) (hs : RaftState.Sound s)
    (hb : base ≤ s.journal.logStart) (ht : s.term = req.term) (hreq : OnPath L req)
    (hseg : Chains.Segment RaftEntry.term L (req.prevIndex + 1) req.prevTerm req.entries)
    (hr : (RaftDispatcher.receiveEntries lastApplied req).on s.journal = (.ok (false, err), j')) :
    Tested L { s with journal := j' } req.term j'.logSize ∧
      Tested L { s with journal := j' } req.term req.prevIndex := by
  have hg := hs.journal_good
  rcases RaftDispatcher.receiveEntries_refused hg hr with
    ⟨rfl, hm⟩ | ⟨first, j1, k, hm, hf, hlt, hcut, happ⟩
  · refine ⟨.inr (.inr ⟨ht, .inl (.inl (le_refl _))⟩), .inr (.inr ⟨ht, ?_⟩)⟩
    rcases RaftDispatcher.matchEntries_false hg hm with hsize | hstart | ⟨e, he, hne⟩
    · exact .inl (.inl hsize)
    · exact .inr (le_of_lt hstart)
    · refine .inl (.inr ⟨req.prevTerm, hreq.prev, fun e' he' => ?_⟩)
      rw [he] at he'
      cases he'
      exact hne
  · have hpath := (overwrite_joins hL hu h hg hb hreq hseg hm hf hlt hcut happ).1
    have hcaught : CaughtUp L { s with journal := j' } req.term := .inr ⟨ht, hpath⟩
    exact ⟨.inr (.inl hcaught), .inr (.inl hcaught)⟩

end

end quarkdb
