-- What the entries of a leader leave in the journal of a follower: which of them
-- are stored, what stays of the old journal, and what becomes committed.
import QuarkDB.RaftDispatcher

namespace quarkdb
namespace RaftDispatcher

open RaftJournal (Good SameVote Takes RollsBack)

/-! ## Comparing -/

/-- The loop stops at the first entry that differs, or at the end. -/
theorem compareLoop_spec {j : RaftJournal} {start : Int} {entries : List RaftEntry} {n : Nat}
    {i : Int} (hs : ∀ k, i ≤ k → k < i + n → (j.db.entries k).isSome) :
    ∃ first, j.compareLoop start entries i n = .ok first ∧ i ≤ first ∧ first ≤ i + n ∧
      (∀ k, i ≤ k → k < first → j.db.entries k = entries[(k - start).toNat]?) ∧
      (first < i + n → j.db.entries first ≠ entries[(first - start).toNat]?) := by
  induction n generalizing i with
  | zero => exact ⟨i, rfl, le_refl _, by omega, fun k h1 h2 => by omega, fun h => by omega⟩
  | succ n ih =>
    obtain ⟨entry, he⟩ := Option.isSome_iff_exists.mp (hs i (le_refl _) (by omega))
    have hf : j.fetchOrDie i = .ok entry := by simp [RaftJournal.fetchOrDie, RaftJournal.fetch, he]
    unfold RaftJournal.compareLoop
    rw [hf]
    simp only [bind, Except.bind]
    by_cases hne : entries[(i - start).toNat]? ≠ some entry
    · rw [if_pos hne]
      refine ⟨i, rfl, le_refl _, by omega, fun k h1 h2 => by omega, fun _ h => hne ?_⟩
      rw [← h, he]
    · rw [if_neg hne]
      obtain ⟨first, h1, h2, h3, h4, h5⟩ := ih (i := i + 1) fun k h1 h2 => hs k (by omega) (by omega)
      refine ⟨first, h1, by omega, by omega, fun k hk1 hk2 => ?_, fun h => h5 (by omega)⟩
      by_cases hk : k = i
      · rw [hk, he, not_not.mp hne]
      · exact h4 k (by omega) hk2

/-- The first index at which a journal differs from the entries that follow one
of its own. -/
theorem compareEntries_spec {j : RaftJournal} (h : Good j) {prev : Int}
    (entries : List RaftEntry) (hp1 : j.logStart ≤ prev) (hp2 : prev < j.logSize) :
    ∃ first, j.compareEntries (prev + 1) entries = .ok first ∧ prev + 1 ≤ first ∧
      first ≤ j.logSize ∧ first ≤ prev + 1 + entries.length ∧
      (∀ k, prev + 1 ≤ k → k < first → j.db.entries k = entries[(k - (prev + 1)).toNat]?) ∧
      (first < j.logSize → first < prev + 1 + entries.length →
        j.db.entries first ≠ entries[(first - (prev + 1)).toNat]?) := by
  unfold RaftJournal.compareEntries
  have hmax : max (prev + 1) j.logStart = prev + 1 := by omega
  simp only [hmax]
  by_cases hle : min j.logSize (prev + 1 + entries.length) ≤ prev + 1
  · rw [if_pos hle]
    exact ⟨_, rfl, by omega, by omega, by omega, fun k h1 h2 => by omega, fun h1 h2 => by omega⟩
  · rw [if_neg hle]
    obtain ⟨first, h1, h2, h3, h4, h5⟩ := @compareLoop_spec j (prev + 1) entries
      (min j.logSize (prev + 1 + entries.length) - (prev + 1)).toNat (prev + 1)
      (fun k hk1 hk2 => (h.stored k).mpr ⟨by omega, by omega⟩)
    exact ⟨first, h1, h2, by omega, by omega, h4, fun hl1 hl2 => h5 (by omega)⟩

theorem matchEntries_true {j : RaftJournal} (h : Good j) {index term : Int}
    (hm : j.matchEntries index term = true) :
    j.logStart ≤ index ∧ index < j.logSize ∧
      ∃ entry, j.db.entries index = some entry ∧ entry.term = term := by
  unfold RaftJournal.matchEntries at hm
  split at hm
  · cases hm
  split at hm
  · rename_i entry he
    have hs := (h.stored index).mp (by rw [show j.db.entries index = some entry from he]; rfl)
    exact ⟨hs.1, hs.2, entry, he, by simpa using hm⟩
  · cases hm

/-! ## Appending -/

/-- The journal took these entries, one after the other. -/
inductive Appended : RaftJournal → List RaftEntry → RaftJournal → Prop
  | nil (j : RaftJournal) : Appended j [] j
  | cons {j j1 j' : RaftJournal} {entry : RaftEntry} {rest : List RaftEntry} :
      Takes j entry.request j1 → entry.term ≤ j.currentTerm → j.termOfLastEntry ≤ entry.term →
      Appended (j1.withEntry entry) rest j' → Appended j (entry :: rest) j'

/-- The loop stores some of the entries, and all if it says so. -/
theorem appendLoop_appended {j : RaftJournal} (h : Good j) (entries : List RaftEntry) :
    ∃ r j' k, (appendLoop j.logSize entries).on j = (r, j') ∧ Appended j (entries.take k) j' ∧
      (r = .ok true → entries.take k = entries) := by
  induction entries generalizing j with
  | nil => exact ⟨.ok true, j, 0, rfl, .nil j, fun _ => rfl⟩
  | cons entry rest ih =>
    unfold appendLoop RaftJournal.append
    rw [Call.on_bind]
    rcases RaftJournal.appendNoLock_cases h.commit_lt_size (RaftJournal.size_nonneg h) j.logSize
      entry with ⟨r, hr, hne⟩ | ⟨-, ht, hl, j1, htk, hr⟩
    · rw [hr]
      cases r with
      | error e => exact ⟨.error e, j, 0, rfl, .nil j, fun h => by cases h⟩
      | ok b =>
        cases b with
        | true => exact absurd rfl hne
        | false => exact ⟨.ok false, j, 0, rfl, .nil j, fun h => by cases h⟩
    · obtain ⟨f1, f2, f3, f4, f5, f6, f7, -⟩ := RaftJournal.takes_frame htk
      have hg : Good (j1.withEntry entry) :=
        RaftJournal.good_withEntry (RaftJournal.good_takes htk h) (by rw [f5]; exact ht)
          (by rw [f6]; exact hl)
      have hsize : (j1.withEntry entry).logSize = j.logSize + 1 := by
        show j1.logSize + 1 = _
        rw [f2]
      obtain ⟨r, j', k, h1, h2, h3⟩ := ih hg
      rw [hsize] at h1
      rw [hr]
      refine ⟨r, j', k + 1, by simpa using h1, .cons htk ht hl h2, fun hok => ?_⟩
      rw [List.take_succ_cons, h3 hok]

/-- What the journal holds after an append. -/
structure Extends (j : RaftJournal) (entries : List RaftEntry) (j' : RaftJournal) : Prop where
  good : Good j'
  size_eq : j'.logSize = j.logSize + entries.length
  entries_eq : ∀ i, j'.db.entries i =
    if j.logSize ≤ i then entries[(i - j.logSize).toNat]? else j.db.entries i
  start_eq : j'.logStart = j.logStart
  commit_eq : j'.commitIndex = j.commitIndex
  same : SameVote j j'

theorem none_of_size_le {j : RaftJournal} (h : Good j) {i : Int} (hi : j.logSize ≤ i) :
    j.db.entries i = none := by
  rw [← Option.not_isSome_iff_eq_none, h.stored]
  omega

theorem Appended.extends {j j' : RaftJournal} {entries : List RaftEntry} (h : Good j)
    (ha : Appended j entries j') : Extends j entries j' := by
  induction ha with
  | nil j =>
    refine ⟨h, by simp, fun i => ?_, rfl, rfl, rfl, rfl⟩
    split
    · rename_i hi
      rw [none_of_size_le h hi, List.getElem?_nil]
    · rfl
  | @cons j j1 j' entry rest htk ht hl _ ih =>
    obtain ⟨f1, f2, f3, f4, f5, f6, f7, -⟩ := RaftJournal.takes_frame htk
    have hg : Good (j1.withEntry entry) :=
      RaftJournal.good_withEntry (RaftJournal.good_takes htk h) (by rw [f5]; exact ht)
        (by rw [f6]; exact hl)
    have hsize : (j1.withEntry entry).logSize = j.logSize + 1 := by
      show j1.logSize + 1 = _
      rw [f2]
    obtain ⟨g1, g2, g3, g4, g5, g6⟩ := ih hg
    refine ⟨g1, ?_, fun i => ?_, g4.trans f3, g5.trans f4,
      ⟨g6.1.trans f5, g6.2.trans f7⟩⟩
    · rw [g2, hsize, List.length_cons]
      push_cast
      omega
    · rw [g3, hsize, RaftJournal.withEntry_entries, f1, f2]
      by_cases hi : i = j.logSize
      · rw [if_neg (by omega), if_pos hi, if_pos (by omega)]
        have hz : (i - j.logSize).toNat = 0 := by omega
        rw [hz, List.getElem?_cons_zero]
      · rw [if_neg hi]
        by_cases hge : j.logSize + 1 ≤ i
        · have hn : (i - j.logSize).toNat = (i - (j.logSize + 1)).toNat + 1 := by omega
          rw [if_pos hge, if_pos (by omega), hn, List.getElem?_cons_succ]
        · rw [if_neg hge, if_neg (by omega)]

/-! ## Overwriting -/

/-- The journal without its entries from `first` on. -/
inductive Cut (j : RaftJournal) (first : Int) : RaftJournal → Prop
  | nothing (h : first = j.logSize) : Cut j first j
  | entries {j' : RaftJournal} {entry : RaftEntry} (hc : j.commitIndex < first)
      (hs : first < j.logSize) (hr : RollsBack j first j')
      (he : j.db.entries (first - 1) = some entry) : Cut j first (j'.withoutEntries first entry.term)

structure CutOff (j : RaftJournal) (first : Int) (j' : RaftJournal) : Prop where
  good : Good j'
  size_eq : j'.logSize = first
  entries_eq : ∀ i, j'.db.entries i = if first ≤ i then none else j.db.entries i
  start_eq : j'.logStart = j.logStart
  commit_eq : j'.commitIndex = j.commitIndex
  same : SameVote j j'

theorem Cut.cutOff {j j' : RaftJournal} {first : Int} (h : Good j) (hc : Cut j first j') :
    CutOff j first j' := by
  cases hc with
  | nothing hf =>
    subst hf
    refine ⟨h, rfl, fun i => ?_, rfl, rfl, rfl, rfl⟩
    split
    · rename_i hi
      exact none_of_size_le h hi
    · rfl
  | entries hc hs hr he =>
    obtain ⟨f1, f2, f3, f4, f5, f6, -⟩ := RaftJournal.rollsBack_frame hr
    refine ⟨RaftJournal.good_withoutEntries (RaftJournal.good_rollsBack hr h) (by rw [f4]; exact hc)
      (by rw [f2]; exact hs) (by rw [f1]; exact he), rfl, fun i => ?_, f3, f4, f5, f6⟩
    rw [RaftJournal.withoutEntries_entries, f1, f2]
    by_cases hi : first ≤ i
    · rw [if_pos hi]
      by_cases hl : i < j.logSize
      · rw [if_pos ⟨hi, hl⟩]
      · rw [if_neg (by omega), none_of_size_le h (by omega)]
    · rw [if_neg hi, if_neg (by omega)]

/-- Nothing happens, or the journal is cut and some of the entries are stored, all
of them if the call says so. -/
theorem overwrite_cases {j : RaftJournal} (h : Good j) {first : Int} (entries : List RaftEntry)
    (hl : first ≤ j.logSize) :
    (∃ e, (overwrite first entries).on j = (.error e, j)) ∨
    ∃ j1 r j' k, Cut j first j1 ∧ (overwrite first entries).on j = (r, j') ∧
      Appended j1 (entries.take k) j' ∧ (r = .ok true → entries.take k = entries) := by
  have h0 : 0 ≤ j.commitIndex := le_trans h.start_nonneg h.start_le_commit
  have hs : ∀ i, j.commitIndex ≤ i → i < j.logSize → (j.db.entries i).isSome := by
    intro i h1 h2
    exact (h.stored i).mpr ⟨le_trans h.start_le_commit h1, h2⟩
  have happend : ∀ {j1 : RaftJournal} {b : Bool}, Cut j first j1 →
      (RaftJournal.removeEntries first).on j = (.ok b, j1) →
      ∃ r j' k, (overwrite first entries).on j = (r, j') ∧ Appended j1 (entries.take k) j' ∧
        (r = .ok true → entries.take k = entries) := by
    intro j1 b hcut hr
    have ho := hcut.cutOff h
    obtain ⟨r, j', k, h1, h2, h3⟩ := appendLoop_appended ho.good entries
    rw [ho.size_eq] at h1
    refine ⟨r, j', k, ?_, h2, h3⟩
    unfold overwrite
    rw [Call.on_bind, hr]
    exact h1
  rcases RaftJournal.removeEntries_cases h0 first hs with
    ⟨r, hr, hne, hout⟩ | ⟨hc', hl', j0, entry, hb, he, hr⟩
  · cases r with
    | error e =>
      refine .inl ⟨e, ?_⟩
      unfold overwrite
      rw [Call.on_bind, hr]
    | ok b =>
      by_cases hf : first = j.logSize
      · obtain ⟨r, j', k, h1, h2, h3⟩ := happend (.nothing hf) hr
        exact .inr ⟨j, r, j', k, .nothing hf, h1, h2, h3⟩
      · -- Inside the journal a removal that returns has removed.
        cases b with
        | true => exact absurd rfl hne
        | false => exact absurd (hout rfl) (by omega)
  · have hcut : Cut j first (j0.withoutEntries first entry.term) := .entries hc' hl' hb he
    obtain ⟨r, j', k, h1, h2, h3⟩ := happend hcut hr
    exact .inr ⟨_, r, j', k, hcut, h1, h2, h3⟩

/-! ## Receiving -/

/-- The journal with another commit index. -/
def withCommit (j : RaftJournal) (index : Int) : RaftJournal :=
  { j with db := { j.db with commitIndex := index }, commitIndex := index }

theorem withCommit_self {j : RaftJournal} (h : Good j) : withCommit j j.commitIndex = j := by
  have hm := h.mirrored.commit_index
  obtain ⟨db, _, _, _, _, commitIndex, _, _, _, _⟩ := j
  obtain ⟨_, _, _, _, _, c, _, _, _, _, _⟩ := db
  simp only [withCommit] at hm ⊢
  rw [hm]

/-- The commit index goes up to that of the leader, but not past the end. -/
theorem finishReceive_on {j : RaftJournal} (h : Good j) (commitIndex : Int) :
    (finishReceive commitIndex).on j = (.ok (true, []),
      withCommit j (max j.commitIndex (min (j.logSize - 1) commitIndex))) := by
  have hc := h.commit_lt_size
  have hw := withCommit_self h
  unfold finishReceive
  simp only [Call.on_bind, Call.on_get, RaftJournal.setCommitIndex_on]
  have hn : ¬ j.logSize ≤ min (j.logSize - 1) commitIndex := by omega
  by_cases h1 : min (j.logSize - 1) commitIndex < j.commitIndex
  · have hm : max j.commitIndex (min (j.logSize - 1) commitIndex) = j.commitIndex := by omega
    rw [if_pos h1, hm, hw]
    rfl
  · rw [if_neg h1, if_neg hn]
    by_cases h2 : j.commitIndex < min (j.logSize - 1) commitIndex
    · have hm : max j.commitIndex (min (j.logSize - 1) commitIndex) =
        min (j.logSize - 1) commitIndex := by omega
      rw [if_pos h2, hm]
      rfl
    · have hm : max j.commitIndex (min (j.logSize - 1) commitIndex) = j.commitIndex := by omega
      rw [if_neg h2, hm, hw]
      rfl

/-- What entries that are accepted leave: all of them were there already, or the
journal was cut where it differs and the rest of them follow. -/
theorem receiveEntries_accepted {j : RaftJournal} (h : Good j) {lastApplied : Int}
    {req : RaftAppendEntriesRequest} {err : Bytes} {j' : RaftJournal}
    (hr : (receiveEntries lastApplied req).on j = (.ok (true, err), j')) :
    j.logStart ≤ req.prevIndex ∧ req.prevIndex < j.logSize ∧
    ((req.prevIndex + req.entries.length < j.logSize ∧
        (∀ k, req.prevIndex < k → k ≤ req.prevIndex + req.entries.length →
          j.db.entries k = req.entries[(k - (req.prevIndex + 1)).toNat]?) ∧
        j' = withCommit j (max j.commitIndex (min (j.logSize - 1) req.commitIndex))) ∨
      ∃ first j1 j2, req.prevIndex < first ∧ first ≤ req.prevIndex + req.entries.length ∧
        j.commitIndex < first ∧ first ≤ j.logSize ∧
        (∀ k, req.prevIndex < k → k < first →
          j.db.entries k = req.entries[(k - (req.prevIndex + 1)).toNat]?) ∧
        j.db.entries first ≠ req.entries[(first - (req.prevIndex + 1)).toNat]? ∧
        Cut j first j1 ∧ Appended j1 (req.entries.drop (first - (req.prevIndex + 1)).toNat) j2 ∧
        j' = withCommit j2 (max j.commitIndex (min (j2.logSize - 1) req.commitIndex))) := by
  rcases receiveEntries_cases lastApplied req j with ⟨r, hr', hne⟩ | ⟨hm, first, hf, hcase⟩
  · rw [hr] at hr'
    cases hr'
    exact absurd rfl (hne err)
  obtain ⟨hp1, hp2, -⟩ := matchEntries_true h hm
  obtain ⟨first', hf', c1, c2, c3, c4, c5⟩ := compareEntries_spec h req.entries hp1 hp2
  rw [hf] at hf'
  cases hf'
  refine ⟨hp1, hp2, ?_⟩
  rcases hcase with ⟨hall, hdone⟩ | ⟨hsome, hcom, hov⟩
  · left
    have he : first = req.prevIndex + 1 + req.entries.length := by omega
    rw [hdone, finishReceive_on h] at hr
    cases hr
    exact ⟨by omega, fun k h1 h2 => c4 k (by omega) (by omega), rfl⟩
  · right
    have hdiff : j.db.entries first ≠ req.entries[(first - (req.prevIndex + 1)).toNat]? := by
      by_cases hlt : first < j.logSize
      · exact c5 hlt (by omega)
      · rw [none_of_size_le h (by omega)]
        intro hnone
        rw [eq_comm, List.getElem?_eq_none_iff] at hnone
        omega
    rcases hov _ rfl with ⟨r, hr', hne⟩ | ⟨hok, hdone⟩
    · rw [hr] at hr'
      cases hr'
      exact absurd rfl (hne err)
    rcases overwrite_cases h (req.entries.drop (first - (req.prevIndex + 1)).toNat) c2 with
      ⟨e, he⟩ | ⟨j1, r, j2, k, hcut, ho, happ, hk⟩
    · rw [he] at hok
      cases hok
    rw [ho] at hok hdone
    obtain rfl : r = .ok true := hok
    rw [hk rfl] at happ
    have hx := happ.extends (hcut.cutOff h).good
    rw [hdone, finishReceive_on hx.good] at hr
    cases hr
    refine ⟨first, j1, j2, by omega, by omega, hcom, c2, fun k h1 h2 => c4 k (by omega) h2, hdiff,
      hcut, happ, ?_⟩
    rw [hx.commit_eq, (hcut.cutOff h).commit_eq]

/-- To observe a term leaves the entries and the commit index alone. -/
theorem observed_journal {s : RaftState} (h : Good s.journal) (term : Int) (leader : RaftServer) :
    Good (s.observed term leader).2.journal ∧
    (s.observed term leader).2.journal.db.entries = s.journal.db.entries ∧
    (s.observed term leader).2.journal.logSize = s.journal.logSize ∧
    (s.observed term leader).2.journal.logStart = s.journal.logStart ∧
    (s.observed term leader).2.journal.commitIndex = s.journal.commitIndex := by
  have hu : ∀ t : RaftState, t.journal = s.journal →
      Good t.updateJournal.journal ∧ t.updateJournal.journal.db.entries = s.journal.db.entries ∧
      t.updateJournal.journal.logSize = s.journal.logSize ∧
      t.updateJournal.journal.logStart = s.journal.logStart ∧
      t.updateJournal.journal.commitIndex = s.journal.commitIndex := by
    intro t ht
    refine ⟨RaftState.good_updateJournal (by rw [ht]; exact h), ?_⟩
    unfold RaftState.updateJournal
    rw [RaftJournal.setCurrentTerm_on, ht]
    split
    · exact ⟨rfl, rfl, rfl, rfl⟩
    · exact ⟨rfl, rfl, rfl, rfl⟩
  unfold RaftState.observed
  split
  · exact ⟨h, rfl, rfl, rfl, rfl⟩
  split
  · exact hu _ (RaftState.enterTerm_frame s term leader).1
  split
  · split
    · exact hu _ rfl
    · exact ⟨h, rfl, rfl, rfl, rfl⟩
  · exact ⟨h, rfl, rfl, rfl, rfl⟩

/-! ## What a follower commits -/

/-- A follower commits no more than the request has checked, stores what was sent,
and keeps what comes before. -/
structure OnlyChecked (req : RaftAppendEntriesRequest) (j j' : RaftJournal) : Prop where
  commit_le : j'.commitIndex ≤ max j.commitIndex (req.prevIndex + req.entries.length)
  stored : ∀ i, req.prevIndex < i → i ≤ req.prevIndex + req.entries.length → j'.logStart ≤ i →
    j'.fetch i = req.entries[(i - (req.prevIndex + 1)).toNat]?
  kept : ∀ i ≤ req.prevIndex, j'.fetch i = j.fetch i

/-- The journal holds all that is sent and goes on after that, and the leader says
that some of what follows is committed. -/
def TailUnchecked (req : RaftAppendEntriesRequest) (j : RaftJournal) : Prop :=
  (∀ i, req.prevIndex < i → i ≤ req.prevIndex + req.entries.length →
    j.fetch i = req.entries[(i - (req.prevIndex + 1)).toNat]?) ∧
  max j.commitIndex (req.prevIndex + req.entries.length) < min (j.logSize - 1) req.commitIndex

theorem onlyChecked_receiveEntries {j j' : RaftJournal} (h : Good j) {lastApplied : Int}
    {req : RaftAppendEntriesRequest} {err : Bytes}
    (hr : (receiveEntries lastApplied req).on j = (.ok (true, err), j')) :
    OnlyChecked req j j' ↔ ¬ TailUnchecked req j := by
  obtain ⟨hp1, hp2, ⟨hlen, hall, rfl⟩ |
    ⟨first, j1, j2, f1, f2, f3, f4, f5, f6, hcut, happ, rfl⟩⟩ := receiveEntries_accepted h hr
  · -- Everything was there: the commit index decides.
    constructor
    · rintro ⟨hc, -, -⟩ ⟨-, ht⟩
      have hc : max j.commitIndex (min (j.logSize - 1) req.commitIndex) ≤
        max j.commitIndex (req.prevIndex + req.entries.length) := hc
      omega
    · intro ht
      refine ⟨?_, fun i h1 h2 _ => hall i h1 h2, fun i _ => rfl⟩
      show max j.commitIndex (min (j.logSize - 1) req.commitIndex) ≤ _
      by_contra hn
      exact ht ⟨hall, by omega⟩
  · have hcutoff := hcut.cutOff h
    have hx := happ.extends hcutoff.good
    have hsize : j2.logSize = req.prevIndex + 1 + req.entries.length := by
      rw [hx.size_eq, hcutoff.size_eq, List.length_drop]
      omega
    constructor
    · intro _ ht
      exact f6 (ht.1 first f1 f2)
    · intro _
      refine ⟨?_, fun i h1 h2 _ => ?_, fun i hi => ?_⟩
      · show max j.commitIndex (min (j2.logSize - 1) req.commitIndex) ≤ _
        omega
      · show j2.db.entries i = _
        rw [hx.entries_eq, hcutoff.size_eq, hcutoff.entries_eq]
        by_cases hi : first ≤ i
        · rw [if_pos hi, List.getElem?_drop]
          congr 1
          omega
        · rw [if_neg hi, if_neg hi]
          exact f5 i h1 (by omega)
      · show j2.db.entries i = j.db.entries i
        rw [hx.entries_eq, hcutoff.size_eq, hcutoff.entries_eq, if_neg (by omega), if_neg (by omega)]

/-- A request that is accepted makes a follower commit only what it has checked,
unless the journal of the follower is longer than that, and agrees with it. -/
theorem a_follower_commits_what_was_checked_unless_its_journal_is_longer {s s' : RaftState}
    (h : Good s.journal) {lastApplied : Int} {req : RaftAppendEntriesRequest}
    {resp : RaftAppendEntriesResponse}
    (hr : (appendEntries lastApplied req).on s = (.ok resp, s')) (ho : resp.outcome = true) :
    OnlyChecked req s.journal s'.journal ↔ ¬ TailUnchecked req s.journal := by
  obtain ⟨hg, he, hl, hst, hc⟩ := observed_journal h req.term req.leader
  rcases appendEntries_cases lastApplied req s with ⟨e, hr'⟩ | ⟨r, hr', hn⟩ | ⟨-, -, -, r, hr', hn⟩
  · rw [hr] at hr'
    cases hr'
  · rw [hr] at hr'
    cases hr'
    rw [hn resp rfl] at ho
    cases ho
  · rw [hr] at hr'
    cases hr'
    obtain ⟨-, -, hrec⟩ := hn resp rfl
    rw [ho] at hrec
    have hiff := onlyChecked_receiveEntries hg hrec
    have ht : TailUnchecked req (s.observed req.term req.leader).2.journal ↔
        TailUnchecked req s.journal := by
      unfold TailUnchecked RaftJournal.fetch
      rw [he, hl, hc]
    have hoc : ∀ j', OnlyChecked req (s.observed req.term req.leader).2.journal j' ↔
        OnlyChecked req s.journal j' := by
      intro j'
      constructor
      · rintro ⟨h1, h2, h3⟩
        rw [hc] at h1
        refine ⟨h1, h2, fun i hi => ?_⟩
        rw [h3 i hi, RaftJournal.fetch, RaftJournal.fetch, he]
      · rintro ⟨h1, h2, h3⟩
        refine ⟨by rw [hc]; exact h1, h2, fun i hi => ?_⟩
        rw [h3 i hi, RaftJournal.fetch, RaftJournal.fetch, he]
    rw [← ht, ← hoc]
    exact hiff

/-- A follower that has two entries of the first term. -/
def twoEntries (new : RaftJournal) : RaftState :=
  .ofJournal (new.afterAll [.setCurrentTerm 1 {}, .append 1 ⟨1, [ascii "SET", ascii "a", ascii "x"]⟩,
    .append 2 ⟨1, [ascii "SET", ascii "b", ascii "x"]⟩]) ⟨ascii "s1", 1⟩

theorem a_request_at_the_end_of_the_journal_is_checked :
    ∃ new s' resp, RaftJournal.obliterate (ascii "id") [⟨ascii "s1", 1⟩] 0 = .ok new ∧
      (appendEntries 0 ⟨2, ⟨ascii "s2", 1⟩, 2, 1, 2, []⟩).on (twoEntries new) = (.ok resp, s') ∧
      OnlyChecked ⟨2, ⟨ascii "s2", 1⟩, 2, 1, 2, []⟩ (twoEntries new).journal s'.journal := by
  obtain ⟨new, hnew⟩ :
    ∃ new, RaftJournal.obliterate (ascii "id") [⟨ascii "s1", 1⟩] 0 = .ok new := ⟨_, rfl⟩
  have hg : Good (twoEntries new).journal :=
    RaftJournal.good_afterAll (RaftJournal.good_obliterate (le_refl 0) hnew) _
  cases hnew
  refine ⟨_, _, _, rfl, rfl, ?_⟩
  refine (a_follower_commits_what_was_checked_unless_its_journal_is_longer hg rfl rfl).mpr ?_
  rintro ⟨-, ht⟩
  exact absurd (show max (0 : Int) 2 < min 2 2 from ht) (by decide)

/-- The leader of the second term sends only the first of the two entries, and its
own second entry is another one: the follower commits the one it has. -/
theorem a_follower_commits_an_entry_that_was_not_checked :
    ∃ (s s' : RaftState) (req : RaftAppendEntriesRequest) (resp : RaftAppendEntriesResponse),
      Good s.journal ∧ (appendEntries 0 req).on s = (.ok resp, s') ∧ resp.outcome = true ∧
      req.prevIndex + req.entries.length = 1 ∧ s.journal.commitIndex = 0 ∧
      s'.journal.commitIndex = 2 ∧ ¬ OnlyChecked req s.journal s'.journal := by
  obtain ⟨new, hnew⟩ :
    ∃ new, RaftJournal.obliterate (ascii "id") [⟨ascii "s1", 1⟩] 0 = .ok new := ⟨_, rfl⟩
  have hg : Good (twoEntries new).journal :=
    RaftJournal.good_afterAll (RaftJournal.good_obliterate (le_refl 0) hnew) _
  cases hnew
  refine ⟨_, _, ⟨2, ⟨ascii "s2", 1⟩, 0, 0, 2, [⟨1, [ascii "SET", ascii "a", ascii "x"]⟩]⟩, _, hg,
    rfl, rfl, rfl, rfl, rfl, ?_⟩
  rintro ⟨hc, -, -⟩
  exact absurd hc (by decide)

end RaftDispatcher

end quarkdb
