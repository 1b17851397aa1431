-- A payload for a target, read while the journal changes: the reads of `sendPayload` and
-- `buildPayload` one by one, and between them the calls of the other threads.
import QuarkDB.JournalScans
import QuarkDB.RaftReplicator

namespace quarkdb

namespace PayloadReads

open Endian Paging RaftJournal

deriving instance DecidableEq for RaftJournal.Iterator

/-! ## The reads -/

/-- The arguments of `sendPayload`, and the term of the snapshot. -/
structure SendArgs where
  snapshotTerm : Int
  nextIndex : Int
  payloadLimit : Int
  /-- `main` throws at a lower index. -/
  one_le : 1 ≤ nextIndex
  fits : nextIndex < 2 ^ 63
  limit_nonneg : 0 ≤ payloadLimit

/-- What is sent; while it is built, what was read of it. -/
structure Payload where
  prevTerm : Int
  commitIndex : Int
  payloadSize : Int
  entries : List Bytes
  lastEntryTerm : Int
  deriving Repr, DecidableEq

/-- What was read up to now. -/
inductive Phase
  | fetching
  | committing (prevTerm : Int)
  | sizing (prevTerm commitIndex : Int)
  | sized (prevTerm commitIndex payloadSize : Int)
  | reading (iterator : RaftJournal.Iterator) (payload : Payload)
  /-- `buildPayload` returned true. -/
  | built (payload : Payload)
  | gaveUp
  | failed (fault : Fault)
  deriving DecidableEq

/-- A round of the loop of `buildPayload`; nothing, if it returns false. -/
def readEntry (snapshotTerm : Int) (iterator : RaftJournal.Iterator) (payload : Payload) :
    Except Fault (Option (RaftJournal.Iterator × Payload)) :=
  if !iterator.valid then .ok none
  else do
    let entry ← iterator.current
    let entryTerm ← RaftEntry.fetchTerm entry
    if snapshotTerm < entryTerm then return none
    else
      let iterator ← iterator.next
      return some (iterator,
        { payload with entries := payload.entries ++ [entry], lastEntryTerm := entryTerm })

/-- The next read. The size of the log is the one in memory, which may be behind the database. -/
def advance (args : SendArgs) (journal : RaftJournal) (logSize : Int) (db : Database) :
    Phase → Phase
  | .fetching =>
    match journal.fetch (args.nextIndex - 1) with
    | none => .gaveUp
    | some previous =>
      if args.snapshotTerm < previous.term then .gaveUp else .committing previous.term
  | .committing prevTerm => .sizing prevTerm journal.commitIndex
  | .sizing prevTerm commitIndex =>
    .sized prevTerm commitIndex (min args.payloadLimit (logSize - args.nextIndex))
  | .sized prevTerm commitIndex payloadSize =>
    -- `entries.resize` takes the number for an unsigned one.
    if payloadSize < 0 then .failed (.thrown "vector::_M_default_append")
    else
      match getIterator db args.nextIndex true with
      | .ok iterator =>
        .reading iterator
          { prevTerm, commitIndex, payloadSize, entries := [], lastEntryTerm := -1 }
      | .error fault => .failed fault
  | .reading iterator payload =>
    if payload.payloadSize ≤ payload.entries.length then .built payload
    else
      match readEntry args.snapshotTerm iterator payload with
      | .ok (some (iterator, payload)) => .reading iterator payload
      | .ok none => .gaveUp
      | .error fault => .failed fault
  | phase => phase

/-! ## The other threads -/

/-- The journal with the size of the log that `getLogSize` gives: a call changes the database
before it changes the size in memory. -/
structure Sending where
  journal : RaftJournal
  logSize : Int
  phase : Phase

def Sending.ofJournal (journal : RaftJournal) : Sending :=
  { journal, logSize := journal.logSize, phase := .fetching }

inductive Move
  /-- A call of another thread, up to its write to the database. -/
  | call (c : JournalCall)
  /-- The size in memory follows. -/
  | settle
  /-- The next read, with these rows in the database. -/
  | read (db : Database)

def step (args : SendArgs) (s : Sending) : Move → Sending
  | .call c => { s with journal := s.journal.after c }
  | .settle => { s with logSize := s.journal.logSize }
  | .read db => { s with phase := advance args s.journal s.logSize db s.phase }

def run (args : SendArgs) (s : Sending) (moves : List Move) : Sending :=
  moves.foldl (step args) s

/-- The numbers are those of an `int64_t`, and the strings can be stored. -/
structure Fits (j : RaftJournal) : Prop where
  size : InWord j.logSize
  storable : ∀ index entry, j.fetch index = some entry → entry.Storable

/-- The calls that need the size of the log. A trim takes no lock, and a vote is not about the
log. -/
def NeedsSize : JournalCall → Prop
  | .trimUntil _ => False
  | .setCurrentTerm _ _ => False
  | _ => True

/-- A call of which the size of the log is a part begins when the one before has ended; and the
iterator finds the entries of the journal in the database. -/
def Possible (s : Sending) : Move → Prop
  | .call c => (NeedsSize c → s.logSize = s.journal.logSize) ∧ Fits (s.journal.after c)
  | .settle => True
  | .read db => ∀ prevTerm commitIndex payloadSize,
    s.phase = .sized prevTerm commitIndex payloadSize → Stores db s.journal

/-- Something holds of every move of a run, and of the state that it is done in. -/
def Along (args : SendArgs) (holds : Sending → Move → Prop) : Sending → List Move → Prop
  | _, [] => True
  | s, move :: moves => holds s move ∧ Along args holds (step args s move) moves

/-! ## What is to hold -/

/-- No size is negative, and nothing was thrown. -/
def Phase.Sane : Phase → Prop
  | .sized _ _ payloadSize => 0 ≤ payloadSize
  | .failed _ => False
  | _ => True

/-- The entries read are those of this journal, and none of them is newer than the snapshot. -/
structure ReadOf (args : SendArgs) (j : RaftJournal) (payload : Payload)
    (entries : List RaftEntry) : Prop where
  serialized : payload.entries = entries.map RaftEntry.serialize
  stored : ∀ (k : Nat) (hk : k < entries.length),
    j.fetch (args.nextIndex + k) = some (entries.get ⟨k, hk⟩)
  term_le : ∀ e ∈ entries, e.term ≤ args.snapshotTerm
  last : payload.lastEntryTerm = (entries.getLast?.map RaftEntry.term).getD (-1)

/-- The payload is as many entries of the journal as it says, from the next index on. -/
def PayloadOf (args : SendArgs) (j : RaftJournal) (payload : Payload) : Prop :=
  ∃ entries, ReadOf args j payload entries ∧ entries.length = payload.payloadSize

/-- When the size of the log is read, the log has an entry before the next index. -/
def LongEnough (args : SendArgs) (s : Sending) : Move → Prop
  | .read _ => ∀ prevTerm commitIndex,
    s.phase = .sizing prevTerm commitIndex → args.nextIndex ≤ s.logSize
  | _ => True

/-- The entry before the next index was fetched, and the size not yet read. -/
def Phase.Fetched : Phase → Prop
  | .committing _ => True
  | .sizing _ _ => True
  | _ => False

/-- The entry that is fetched is not one whose append goes on, and it is not removed before the
size is read. -/
def Undisturbed (args : SendArgs) (s : Sending) : Move → Prop
  | .call (.removeEntries first) => s.phase.Fetched → args.nextIndex ≤ first
  | .read _ => s.phase = .fetching → (s.journal.fetch (args.nextIndex - 1)).isSome →
    args.nextIndex ≤ s.logSize
  | _ => True

/-! ## The iterator of a payload -/

/-- The iterator goes over the entries of a journal from an index on. -/
def Ahead (j : RaftJournal) (index : Int) (it : RaftJournal.Iterator) : Prop :=
  ∃ others es, At others es it ∧ Consecutive index es ∧
    (∀ e ∈ es, j.fetch e.index = some e.entry) ∧ ∀ row ∈ others.head?, row.1.head? ≠ some 69

section

variable {j : RaftJournal} {db : Database} {it : RaftJournal.Iterator} {index : Int}

theorem ahead_nil (hv : it.valid = false) : Ahead j index it :=
  ⟨[], [], hv, trivial, by simp, by simp⟩

theorem encodeEntryKey_inj {a b : Int} (ha : 0 ≤ a ∧ a < 2 ^ 63) (hb : 0 ≤ b ∧ b < 2 ^ 63)
    (h : encodeEntryKey a = encodeEntryKey b) : a = b := by
  have hparse := parseEntryKey_encodeEntryKey ha.1 ha.2
  rw [h, parseEntryKey_encodeEntryKey hb.1 hb.2] at hparse
  exact (Option.some.inj hparse).symm

theorem getIterator_of_head {startingPoint : Int} {row : Bytes × Bytes}
    {rest : List (Bytes × Bytes)} (h : db.seek (encodeEntryKey startingPoint) = row :: rest)
    (hkey : row.1 = encodeEntryKey startingPoint) (hparse : parseEntryKey row.1 = some index) :
    getIterator db startingPoint true =
      Iterator.validate { iter := some (row :: rest), currentIndex := index } := by
  obtain ⟨key, value⟩ := row
  obtain rfl : key = _ := hkey
  simp [getIterator, h, hparse]

/-- The iterator begins at the entry that it must, or it is not valid. -/
theorem getIterator_ahead (hj : Good j) (hfits : Fits j) (hdb : Stores db j)
    (hindex : 0 ≤ index ∧ index < 2 ^ 63) :
    ∃ it, getIterator db index true = .ok it ∧ Ahead j index it := by
  obtain ⟨cursor, rfl⟩ := Int.eq_ofNat_of_zero_le hindex.1
  obtain ⟨others, hseek, hothers⟩ := seek_eq hj hfits.size hdb hindex.2
  obtain ⟨before, hbefore⟩ : entriesSince j cursor <:+ storedEntries j := since_suffix _ _ _
  have hcons := consecutive_storedEntries hj
  rw [← hbefore] at hcons
  have hmem : ∀ e ∈ entriesSince j cursor, e ∈ storedEntries j :=
    fun e he => hbefore ▸ List.mem_append_right before he
  have hrest := hcons.append_right
  change db.seek _ = (entriesSince j cursor).map rowOf ++ others at hseek
  generalize entriesSince j cursor = es at hseek hrest hmem
  cases es with
  | nil =>
    refine ⟨{ iter := none, currentIndex := cursor }, ?_, ahead_nil rfl⟩
    cases others with
    | nil => simp [getIterator, hseek]
    | cons row rest =>
      have hno := parseEntryKey_of_head (hothers row rfl)
      simp [getIterator, hseek, hno]
  | cons e es =>
    have hi := index_bounds hj hfits.size (hmem e List.mem_cons_self)
    rw [List.map_cons, List.cons_append] at hseek
    by_cases hkey : encodeEntryKey e.index = encodeEntryKey cursor
    · have he := encodeEntryKey_inj ⟨hi.1, by omega⟩ hindex hkey
      have hc : Consecutive (cursor : Int) (e :: es) := ⟨he, by
        rw [← he, hrest.1]
        exact hrest.2⟩
      obtain ⟨it, hv, hat⟩ := validate_at hothers (by simp) hc
      refine ⟨it, ?_, others, e :: es, hat, hc, fun e he => ?_, hothers⟩
      · have hparse : parseEntryKey (rowOf e).1 = some (cursor : Int) := by
          rw [← he]
          exact parseEntryKey_encodeEntryKey hi.1 (by omega)
        rw [List.map_cons, List.cons_append] at hv
        exact (getIterator_of_head hseek hkey hparse).trans hv
      · exact (mem_storedEntries hj).mp (hmem e he)
    · refine ⟨{ iter := none, currentIndex := cursor }, ?_, ahead_nil rfl⟩
      have hother : (rowOf e).1 ≠ encodeEntryKey cursor := hkey
      simp [getIterator, hseek, hother]

end

/-! ## A round of the loop -/

/-- What is read of a payload, and the iterator that reads it. -/
structure Reading (args : SendArgs) (j : RaftJournal) (it : RaftJournal.Iterator)
    (payload : Payload) (entries : List RaftEntry) : Prop where
  read : ReadOf args j payload entries
  ahead : Ahead j (args.nextIndex + entries.length) it
  fits : entries.length ≤ payload.payloadSize

section

variable {args : SendArgs} {j : RaftJournal} {it : RaftJournal.Iterator} {payload : Payload}
  {entries : List RaftEntry}

theorem ReadOf.length (h : ReadOf args j payload entries) :
    payload.entries.length = entries.length := by
  rw [h.serialized, List.length_map]

/-- One entry more. -/
theorem ReadOf.snoc (h : ReadOf args j payload entries) {e : RaftEntry}
    (he : j.fetch (args.nextIndex + entries.length) = some e) (ht : e.term ≤ args.snapshotTerm) :
    ReadOf args j { payload with
      entries := payload.entries ++ [e.serialize], lastEntryTerm := e.term } (entries ++ [e]) where
  serialized := by
    rw [List.map_append, h.serialized]
    rfl
  stored k hk := by
    rw [List.length_append, List.length_singleton] at hk
    by_cases hlt : k < entries.length
    · rw [h.stored k hlt]
      simp [List.getElem_append_left hlt]
    · obtain rfl : k = entries.length := by omega
      rw [he]
      simp
  term_le e' he' := by
    rcases List.mem_append.mp he' with he' | he'
    · exact h.term_le e' he'
    · rw [List.mem_singleton.mp he']
      exact ht
  last := by simp

/-- A round gives up, or it reads an entry more. -/
theorem Reading.readEntry (h : Reading args j it payload entries)
    (hs : ∀ index entry, j.fetch index = some entry → entry.Storable)
    (hmore : (entries.length : Int) < payload.payloadSize) :
    readEntry args.snapshotTerm it payload = .ok none ∨
    ∃ it' payload' entries', readEntry args.snapshotTerm it payload = .ok (some (it', payload')) ∧
      Reading args j it' payload' entries' := by
  obtain ⟨others, es, hat, hc, hes, hothers⟩ := h.ahead
  cases es with
  | nil =>
    have hv : it.valid = false := hat
    exact .inl (by simp [PayloadReads.readEntry, hv])
  | cons e es =>
    have hfetch := hes e List.mem_cons_self
    have hterm := RaftEntry.fetchTerm_storable (hs _ _ hfetch)
    obtain ⟨it', hn, hat'⟩ := next_at hothers hat hc
    have hround : PayloadReads.readEntry args.snapshotTerm it payload =
        if args.snapshotTerm < e.entry.term then .ok none
        else .ok (some (it', { payload with
          entries := payload.entries ++ [e.entry.serialize], lastEntryTerm := e.entry.term })) := by
      unfold PayloadReads.readEntry
      rw [valid_at hat, if_neg (by simp), bind_of_ok (current_at hat).1, bind_of_ok hterm]
      split
      · rfl
      · exact bind_of_ok hn _
    by_cases hle : args.snapshotTerm < e.entry.term
    · exact .inl (by rw [hround, if_pos hle])
    · refine .inr ⟨it', _, entries ++ [e.entry], by rw [hround, if_neg hle], ?_, ?_, ?_⟩
      · exact h.read.snoc (by rw [← hc.1]; exact hfetch) (not_lt.mp hle)
      · refine ⟨others, es, hat', ?_, fun e' he' => hes e' (List.mem_cons_of_mem e he'), hothers⟩
        rw [List.length_append, List.length_singleton, Nat.cast_add, ← Int.add_assoc]
        exact hc.2
      · rw [List.length_append, List.length_singleton]
        show ((entries.length + 1 : Nat) : Int) ≤ payload.payloadSize
        omega

end

/-! ## One move -/

/-- The size of the log after an append. -/
theorem logSize_appendNoLock {j : RaftJournal} (h : Good j) (index : Int) (entry : RaftEntry) :
    j.logSize ≤ ((appendNoLock index entry).on j).2.logSize := by
  rcases appendNoLock_cases h.commit_lt_size (size_nonneg h) index entry with
    ⟨r, hr, -⟩ | ⟨-, -, -, j', htakes, hr⟩
  · rw [hr]
  · rw [hr]
    have hsize := (takes_frame htakes).2.1
    show j.logSize ≤ j'.logSize + 1
    omega

theorem logSize_of_append {j j' : RaftJournal} (h : Good j)
    (hj : j' = j ∨ ∃ entry, j' = ((appendNoLock j.logSize entry).on j).2) :
    j.logSize ≤ j'.logSize := by
  rcases hj with rfl | ⟨entry, rfl⟩
  · exact le_refl _
  · exact logSize_appendNoLock h _ entry

/-- A removal does nothing, or the entries from an uncommitted index on are gone. -/
theorem after_removeEntries {j : RaftJournal} (h : Good j) (first : Int) :
    j.after (.removeEntries first) = j ∨
    j.commitIndex < first ∧ first < j.logSize ∧ ∃ (j' : RaftJournal) (lastTerm : Int),
      j'.db.entries = j.db.entries ∧ j.after (.removeEntries first) = j'.withoutEntries first lastTerm := by
  have h0 : 0 ≤ j.commitIndex := le_trans h.start_nonneg h.start_le_commit
  have hs : ∀ i, j.commitIndex ≤ i → i < j.logSize → (j.db.entries i).isSome :=
    fun i h1 h2 => (h.stored i).mpr ⟨le_trans h.start_le_commit h1, h2⟩
  have hafter : j.after (.removeEntries first) = ((removeEntries first).on j).2 := rfl
  rw [hafter]
  rcases removeEntries_cases h0 first hs with ⟨r, hr, -⟩ | ⟨hc, hlt, j', entry, hback, -, hr⟩
  · exact .inl (by rw [hr])
  · exact .inr ⟨hc, hlt, j', entry.term, (rollsBack_frame hback).1, by rw [hr]⟩

theorem logSize_removeEntries {j : RaftJournal} (h : Good j) (first : Int) :
    min j.logSize first ≤ (j.after (.removeEntries first)).logSize := by
  rcases after_removeEntries h first with hj | ⟨-, -, j', lastTerm, -, hj⟩
  · rw [hj]
    exact min_le_left _ _
  · rw [hj]
    exact min_le_right _ _

/-- Only a removal makes the log shorter. -/
theorem logSize_after {j : RaftJournal} (h : Good j) (c : JournalCall)
    (hc : ∀ first, c ≠ .removeEntries first) : j.logSize ≤ (j.after c).logSize := by
  cases c with
  | append index entry => exact logSize_appendNoLock h index entry
  | membershipUpdate term newMembers =>
    exact logSize_of_append h (membershipUpdate_state j term newMembers)
  | addObserver term observer => exact logSize_of_append h (updateWith_state j _ term)
  | removeMember term member => exact logSize_of_append h (updateWith_state j _ term)
  | promoteObserver term observer => exact logSize_of_append h (updateWith_state j _ term)
  | demoteToObserver term member => exact logSize_of_append h (updateWith_state j _ term)
  | appendLeadershipMarker index term leader => exact logSize_appendNoLock h index _
  | removeEntries first => exact absurd rfl (hc first)
  | setCommitIndex newIndex =>
    show j.logSize ≤ ((setCommitIndex newIndex).on j).2.logSize
    rw [setCommitIndex_on]
    split_ifs <;> exact le_refl _
  | trimUntil newLogStart =>
    show j.logSize ≤ ((trimUntil newLogStart).on j).2.logSize
    rw [trimUntil_on]
    split_ifs <;> exact le_refl _
  | setCurrentTerm term vote =>
    show j.logSize ≤ ((setCurrentTerm term vote).on j).2.logSize
    rw [setCurrentTerm_on]
    split_ifs <;> exact le_refl _
  | reopen =>
    unfold after
    cases hj : initializeJournal j.db with
    | error e => exact le_refl _
    | ok j' =>
      rw [(reopen_ok h hj).1]

/-- What was read of the entries is of a journal that was seen. -/
def Phase.Traced (args : SendArgs) (seen : RaftJournal → Prop) : Phase → Prop
  | .reading it payload => ∃ j entries, seen j ∧ Fits j ∧ Reading args j it payload entries
  | .built payload => ∃ j, seen j ∧ PayloadOf args j payload
  | _ => True

structure Kept (args : SendArgs) (seen : RaftJournal → Prop) (s : Sending) : Prop where
  good : Good s.journal
  fits : Fits s.journal
  traced : s.phase.Traced args seen

section

variable {args : SendArgs} {seen seen' : RaftJournal → Prop} {s : Sending} {move : Move}
  {db : Database}

theorem Phase.Traced.mono {phase : Phase} (h : phase.Traced args seen)
    (hle : ∀ j, seen j → seen' j) : phase.Traced args seen' := by
  cases phase with
  | reading it payload =>
    obtain ⟨j, entries, hj, hr⟩ := h
    exact ⟨j, entries, hle j hj, hr⟩
  | built payload =>
    obtain ⟨j, hj, hp⟩ := h
    exact ⟨j, hle j hj, hp⟩
  | _ => trivial

/-- A read that fails is one for which a negative size was computed. -/
theorem Kept.advance (h : Kept args seen s) (hseen : seen s.journal)
    (hp : Possible s (.read db)) :
    (advance args s.journal s.logSize db s.phase).Traced args seen ∧
    (s.phase.Sane → LongEnough args s (.read db) →
      (advance args s.journal s.logSize db s.phase).Sane) := by
  obtain ⟨hgood, hfits, htraced⟩ := h
  obtain ⟨journal, logSize, phase⟩ := s
  cases phase with
  | fetching =>
    unfold PayloadReads.advance
    dsimp only
    split
    · exact ⟨trivial, fun _ _ => trivial⟩
    · split_ifs <;> exact ⟨trivial, fun _ _ => trivial⟩
  | committing prevTerm => exact ⟨trivial, fun _ _ => trivial⟩
  | sizing prevTerm commitIndex =>
    refine ⟨trivial, fun _ hlong => ?_⟩
    have hle : args.nextIndex ≤ logSize := hlong prevTerm commitIndex rfl
    have hlimit := args.limit_nonneg
    show 0 ≤ min args.payloadLimit (logSize - args.nextIndex)
    omega
  | sized prevTerm commitIndex payloadSize =>
    have hone := args.one_le
    have hfit := args.fits
    obtain ⟨it, hit, hahead⟩ := getIterator_ahead hgood hfits (hp _ _ _ rfl)
      (show 0 ≤ args.nextIndex ∧ args.nextIndex < 2 ^ 63 by omega)
    unfold PayloadReads.advance
    dsimp only
    by_cases hneg : payloadSize < 0
    · rw [if_pos hneg]
      exact ⟨trivial, fun hsane _ => absurd hsane (not_le.mpr hneg)⟩
    · rw [if_neg hneg, hit]
      refine ⟨⟨journal, [], hseen, hfits, ?_, ?_, not_lt.mp hneg⟩, fun _ _ => trivial⟩
      · exact ⟨rfl, fun k hk => absurd hk (Nat.not_lt_zero k), by simp, rfl⟩
      · rw [List.length_nil, Nat.cast_zero, Int.add_zero]
        exact hahead
  | reading it payload =>
    obtain ⟨j, entries, hj, hjfits, hr⟩ := htraced
    unfold PayloadReads.advance
    dsimp only
    rw [hr.read.length]
    by_cases hend : payload.payloadSize ≤ entries.length
    · rw [if_pos hend]
      exact ⟨⟨j, hj, entries, hr.read, le_antisymm hr.fits hend⟩, fun _ _ => trivial⟩
    · rw [if_neg hend]
      rcases hr.readEntry hjfits.storable (not_le.mp hend) with hround | ⟨it', p', es', hround, hr'⟩
      · rw [hround]
        exact ⟨trivial, fun _ _ => trivial⟩
      · rw [hround]
        exact ⟨⟨j, es', hj, hjfits, hr'⟩, fun _ _ => trivial⟩
  | built payload => exact ⟨htraced, fun _ _ => trivial⟩
  | gaveUp => exact ⟨trivial, fun _ _ => trivial⟩
  | failed fault => exact ⟨trivial, fun hsane _ => hsane⟩

theorem Kept.step (h : Kept args seen s) (hseen : seen s.journal) (hp : Possible s move) :
    Kept args seen (step args s move) := by
  cases move with
  | call c => exact ⟨(good_after h.good c).1, hp.2, h.traced⟩
  | settle => exact ⟨h.good, h.fits, h.traced⟩
  | read db => exact ⟨h.good, h.fits, (h.advance hseen hp).1⟩

theorem Kept.sane_step (h : Kept args seen s) (hseen : seen s.journal) (hp : Possible s move)
    (hsane : s.phase.Sane) (hlong : LongEnough args s move) :
    (PayloadReads.step args s move).phase.Sane := by
  cases move with
  | read db => exact (h.advance hseen hp).2 hsane hlong
  | _ => exact hsane

/-- As long as the size is not read, the log is long enough, in the database and in memory. -/
def Held (args : SendArgs) (s : Sending) : Prop :=
  s.phase.Fetched → args.nextIndex ≤ s.journal.logSize ∧ args.nextIndex ≤ s.logSize

/-- Before the size is read, the entry before the next index was found. -/
theorem fetched_of_advance {journal : RaftJournal} {logSize : Int} {phase : Phase}
    (h : (advance args journal logSize db phase).Fetched) :
    phase = .fetching ∧ (journal.fetch (args.nextIndex - 1)).isSome ∨ phase.Fetched := by
  cases phase with
  | fetching =>
    cases hfetch : journal.fetch (args.nextIndex - 1) with
    | none =>
      simp only [advance, hfetch] at h
      exact h.elim
    | some previous => exact .inl ⟨rfl, rfl⟩
  | committing prevTerm => exact .inr trivial
  | sized prevTerm commitIndex payloadSize =>
    simp only [advance] at h
    split_ifs at h
    · exact h.elim
    · split at h <;> exact h.elim
  | reading it payload =>
    simp only [advance] at h
    split_ifs at h
    · exact h.elim
    · split at h <;> exact h.elim
  | _ => exact h.elim

theorem Held.step (h : Held args s) (hj : Good s.journal) (hu : Undisturbed args s move) :
    Held args (step args s move) := by
  intro hf
  cases move with
  | call c =>
    obtain ⟨hsize, hshown⟩ := h hf
    refine ⟨?_, hshown⟩
    by_cases hc : ∃ first, c = .removeEntries first
    · obtain ⟨first, rfl⟩ := hc
      exact le_trans (le_min hsize (hu hf)) (logSize_removeEntries hj first)
    · exact le_trans hsize (logSize_after hj c fun first he => hc ⟨first, he⟩)
  | settle => exact ⟨(h hf).1, (h hf).1⟩
  | read db =>
    rcases fetched_of_advance hf with ⟨hphase, hsome⟩ | hf
    · have hlt := ((hj.stored _).mp hsome).2
      refine ⟨?_, hu hphase hsome⟩
      show args.nextIndex ≤ s.journal.logSize
      omega
    · exact h hf

end

/-! ## A whole run -/

section

variable {args : SendArgs} {holds : Sending → Move → Prop} {s : Sending}
  {before moves : List Move} {move : Move}

theorem run_snoc (s : Sending) (moves : List Move) (move : Move) :
    run args s (moves ++ [move]) = step args (run args s moves) move := by
  simp [run]

theorem along_snoc : Along args holds s (moves ++ [move]) ↔
    Along args holds s moves ∧ holds (run args s moves) move := by
  induction moves generalizing s with
  | nil => simp [Along, run]
  | cons m moves ih =>
    rw [List.cons_append, Along, Along, ih, and_assoc]
    rfl

theorem along_iff : Along args holds s moves ↔
    ∀ before move, before ++ [move] <+: moves → holds (run args s before) move := by
  induction moves using List.reverseRecOn with
  | nil => simp [Along]
  | append_singleton moves last ih =>
    rw [along_snoc, ih]
    constructor
    · rintro ⟨hall, hlast⟩ before move hb
      rcases List.prefix_concat_iff.mp hb with he | hb
      · obtain ⟨rfl, hmove⟩ := List.append_inj' he rfl
        rw [List.singleton_inj.mp hmove]
        exact hlast
      · exact hall before move hb
    · intro hall
      exact ⟨fun before move hb => hall before move (hb.trans (List.prefix_append _ _)),
        hall moves last List.prefix_rfl⟩

theorem along_before (h : Along args holds s moves) (hb : before <+: moves) :
    Along args holds s before :=
  along_iff.mpr fun b m hbm => along_iff.mp h b m (hbm.trans hb)

/-- The journals of a run. -/
def Seen (args : SendArgs) (s : Sending) (moves : List Move) (j : RaftJournal) : Prop :=
  ∃ before, before <+: moves ∧ j = (run args s before).journal

theorem seen_last : Seen args s moves (run args s moves).journal := ⟨moves, List.prefix_rfl, rfl⟩

/-- The start of a run. -/
theorem kept_run {j : RaftJournal} (hj : Good j) (hfits : Fits j) (moves : List Move)
    (hp : Along args Possible (.ofJournal j) moves) :
    Kept args (Seen args (.ofJournal j) moves) (run args (.ofJournal j) moves) := by
  induction moves using List.reverseRecOn with
  | nil => exact ⟨hj, hfits, trivial⟩
  | append_singleton moves last ih =>
    obtain ⟨hall, hlast⟩ := along_snoc.mp hp
    rw [run_snoc]
    obtain ⟨hgood, hfits', htraced⟩ := (ih hall).step seen_last hlast
    refine ⟨hgood, hfits', htraced.mono ?_⟩
    rintro j' ⟨before, hb, rfl⟩
    exact ⟨before, hb.trans (List.prefix_append _ _), rfl⟩

/-- When the log is long enough at every read of its size, no size is negative. -/
theorem sane_run {j : RaftJournal} (hj : Good j) (hfits : Fits j) (moves : List Move)
    (hp : Along args Possible (.ofJournal j) moves)
    (hlong : Along args (LongEnough args) (.ofJournal j) moves) :
    (run args (.ofJournal j) moves).phase.Sane := by
  induction moves using List.reverseRecOn with
  | nil => trivial
  | append_singleton moves last ih =>
    obtain ⟨hpall, hplast⟩ := along_snoc.mp hp
    obtain ⟨hlall, hllast⟩ := along_snoc.mp hlong
    rw [run_snoc]
    exact (kept_run hj hfits moves hpall).sane_step seen_last hplast (ih hpall hlall) hllast

/-- A read of the size with no negative outcome is one of a log that is long enough. -/
theorem longEnough_of_sane (h : (step args s move).phase.Sane) : LongEnough args s move := by
  cases move with
  | read db =>
    intro prevTerm commitIndex hphase
    simp only [step, hphase, advance] at h
    have hle : 0 ≤ min args.payloadLimit (s.logSize - args.nextIndex) := h
    omega
  | _ => trivial

/-- An undisturbed run. -/
theorem held_run {j : RaftJournal} (hj : Good j) (hfits : Fits j) (moves : List Move)
    (hp : Along args Possible (.ofJournal j) moves)
    (hu : Along args (Undisturbed args) (.ofJournal j) moves) :
    Held args (run args (.ofJournal j) moves) := by
  induction moves using List.reverseRecOn with
  | nil => exact fun hf => hf.elim
  | append_singleton moves last ih =>
    obtain ⟨hpall, -⟩ := along_snoc.mp hp
    obtain ⟨huall, hulast⟩ := along_snoc.mp hu
    rw [run_snoc]
    exact (ih hpall huall).step (kept_run hj hfits moves hpall).good hulast

/-- In any interleaving with other calls a payload that is built is a part of one journal. No
negative size is computed, if and only if the log that shows its size has not become shorter than
the next index; and so it is, if the entry before it stays from its fetch on. -/
theorem a_payload_is_of_one_journal_and_its_size_is_not_negative_iff {j : RaftJournal}
    (hj : Good j) (hfits : Fits j) (moves : List Move)
    (hp : Along args Possible (.ofJournal j) moves) :
    (∀ payload, (run args (.ofJournal j) moves).phase = .built payload →
      ∃ before, before <+: moves ∧
        PayloadOf args (run args (.ofJournal j) before).journal payload) ∧
    ((∀ before, before <+: moves → (run args (.ofJournal j) before).phase.Sane) ↔
      Along args (LongEnough args) (.ofJournal j) moves) ∧
    (Along args (Undisturbed args) (.ofJournal j) moves →
      Along args (LongEnough args) (.ofJournal j) moves) := by
  refine ⟨fun payload hbuilt => ?_, ⟨fun hsane => ?_, fun hlong before hb => ?_⟩, fun hu => ?_⟩
  · have htraced := (kept_run hj hfits moves hp).traced
    rw [hbuilt] at htraced
    obtain ⟨j', ⟨before, hb, rfl⟩, hpayload⟩ := htraced
    exact ⟨before, hb, hpayload⟩
  · refine along_iff.mpr fun before move hb => longEnough_of_sane ?_
    rw [← run_snoc]
    exact hsane _ hb
  · exact sane_run hj hfits before (along_before hp hb) (along_before hlong hb)
  · refine along_iff.mpr fun before move hb => ?_
    have hheld := held_run hj hfits before
      (along_before hp ((List.prefix_append _ _).trans hb))
      (along_before hu ((List.prefix_append _ _).trans hb))
    cases move with
    | read db =>
      intro prevTerm commitIndex hphase
      exact (hheld (by rw [hphase]; trivial)).2
    | _ => trivial

end

/-! ## A payload that is built at once -/

section

open RaftReplicaTracker (buildLoop)

theorem buildLoop_of_stored {j : RaftJournal} {snapshotTerm index : Int} {entries : List RaftEntry}
    (hs : ∀ (k : Nat) (hk : k < entries.length),
      j.fetch (index + k) = some (entries.get ⟨k, hk⟩))
    (ht : ∀ e ∈ entries, e.term ≤ snapshotTerm) :
    buildLoop j snapshotTerm index entries.length = some entries := by
  induction entries generalizing index with
  | nil => rfl
  | cons e entries ih =>
    have hfirst : j.fetch index = some e := by
      have h0 := hs 0 (Nat.succ_pos _)
      rwa [Nat.cast_zero, Int.add_zero] at h0
    have hrest : buildLoop j snapshotTerm (index + 1) entries.length = some entries := by
      refine ih (fun k hk => ?_) fun e' he' => ht e' (List.mem_cons_of_mem e he')
      have hk' := hs (k + 1) (Nat.succ_lt_succ hk)
      rw [Nat.cast_succ, Int.add_comm (k : Int) 1, ← Int.add_assoc] at hk'
      exact hk'
    have hle := ht e List.mem_cons_self
    simp [buildLoop, hfirst, hrest, not_lt.mpr hle]

/-- With nothing between the reads the same payload is built from that journal. -/
theorem PayloadOf.built_at_once {args : SendArgs} {j : RaftJournal} {payload : Payload}
    (h : PayloadOf args j payload) :
    ∃ entries, buildLoop j args.snapshotTerm args.nextIndex payload.payloadSize.toNat =
        some entries ∧ payload.entries = entries.map RaftEntry.serialize := by
  obtain ⟨entries, hread, hlength⟩ := h
  refine ⟨entries, ?_, hread.serialized⟩
  rw [← hlength]
  exact buildLoop_of_stored hread.stored hread.term_le

end

/-! ## Two runs -/

theorem Fits.append {j : RaftJournal} (h : Fits j) (hj : Good j) (index : Int) {entry : RaftEntry}
    (hs : entry.Storable) (hsize : j.logSize < 2 ^ 63 - 1) : Fits (j.after (.append index entry)) := by
  have hnonneg := size_nonneg hj
  show Fits ((appendNoLock index entry).on j).2
  rcases appendNoLock_cases hj.commit_lt_size hnonneg index entry with
    ⟨r, hr, -⟩ | ⟨-, -, -, j', htakes, hr⟩
  · rw [hr]
    exact h
  · rw [hr]
    obtain ⟨hentries, hsize', -⟩ := takes_frame htakes
    refine ⟨?_, fun i e he => ?_⟩
    · show -2 ^ 63 ≤ j'.logSize + 1 ∧ j'.logSize + 1 < 2 ^ 63
      omega
    · unfold fetch at he
      rw [withEntry_entries, hentries] at he
      split at he
      · obtain rfl := Option.some.inj he
        exact hs
      · exact h.storable i e he

theorem Fits.removeEntries {j : RaftJournal} (h : Fits j) (hj : Good j) (first : Int) :
    Fits (j.after (.removeEntries first)) := by
  have hsize := h.size
  have hcommit := le_trans hj.start_nonneg hj.start_le_commit
  rcases after_removeEntries hj first with hafter | ⟨hc, hlt, j', lastTerm, hentries, hafter⟩
  · rw [hafter]
    exact h
  · rw [hafter]
    refine ⟨?_, fun i e he => ?_⟩
    · show -2 ^ 63 ≤ first ∧ first < 2 ^ 63
      unfold InWord at hsize
      omega
    · unfold fetch at he
      rw [withoutEntries_entries, hentries] at he
      split at he
      · cases he
      · exact h.storable i e he

theorem fits_new {j : RaftJournal}
    (hj : obliterate (ascii "id") [⟨ascii "s1", 7776⟩] 5 = .ok j) : Fits j := by
  refine ⟨?_, storable_new hj⟩
  obtain rfl := Except.ok.inj hj
  decide

/-- The new journal with the next entry. -/
theorem sound_written {new : RaftJournal}
    (hnew : obliterate (ascii "id") [⟨ascii "s1", 7776⟩] 5 = .ok new) :
    Good (new.after (.append 6 written)) ∧ Fits (new.after (.append 6 written)) := by
  have hgood := good_obliterate (by decide) hnew
  have hsize : new.logSize = 6 := by
    obtain rfl := Except.ok.inj hnew
    rfl
  exact ⟨(good_after hgood _).1,
    (fits_new hnew).append hgood 6 storable_written (by rw [hsize]; decide)⟩

/-- A target that has everything is sent entries from index seven on. -/
def upToDate : SendArgs :=
  { snapshotTerm := 0, nextIndex := 7, payloadLimit := 1
    one_le := by decide, fits := by decide, limit_nonneg := by decide }

/-- The entry before the next index is fetched, then the log is cut below it: the size is -1. -/
theorem a_cut_log_gives_a_negative_size :
    ∃ new j, obliterate (ascii "id") [⟨ascii "s1", 7776⟩] 5 = .ok new ∧
      j = new.after (.append 6 written) ∧ Good j ∧ Fits j ∧
      ∃ moves, moves = [.read newRows, .read newRows, .call (.removeEntries 6), .settle,
          .read newRows] ∧
        Along upToDate Possible (.ofJournal j) moves ∧
        (run upToDate (.ofJournal j) moves).phase = .sized 0 5 (-1) ∧
        ∀ db, (step upToDate (run upToDate (.ofJournal j) moves) (.read db)).phase =
          .failed (.thrown "vector::_M_default_append") := by
  obtain ⟨new, hnew⟩ : ∃ new, obliterate (ascii "id") [⟨ascii "s1", 7776⟩] 5 = .ok new := ⟨_, rfl⟩
  obtain ⟨hgood, hfits⟩ := sound_written hnew
  have hcut := hfits.removeEntries hgood 6
  refine ⟨new, _, hnew, rfl, hgood, hfits, _, rfl, ?_, ?_, fun db => ?_⟩
  · obtain rfl := Except.ok.inj hnew
    refine ⟨nofun, nofun, ⟨fun _ => rfl, hcut⟩, trivial, nofun, trivial⟩
  · obtain rfl := Except.ok.inj hnew
    rfl
  · obtain rfl := Except.ok.inj hnew
    rfl

/-- A target that has all but the next entry. -/
def oneBehind : SendArgs :=
  { snapshotTerm := 0, nextIndex := 6, payloadLimit := 1
    one_le := by decide, fits := by decide, limit_nonneg := by decide }

/-- The rows of the journal with that entry. -/
def twoRows : Database :=
  ⟨[(encodeEntryKey 5, firstEntry.serialize), (encodeEntryKey 6, written.serialize)],
    by decide +kernel⟩

/-- The next entry is appended between the reads, and it is all of the payload. -/
theorem an_entry_appended_between_the_reads_is_sent :
    ∃ new, obliterate (ascii "id") [⟨ascii "s1", 7776⟩] 5 = .ok new ∧ ∃ moves payload,
      moves = [.read twoRows, .read twoRows, .call (.append 6 written), .settle, .read twoRows,
        .read twoRows, .read twoRows, .read twoRows] ∧
      (run oneBehind (.ofJournal new) moves).phase = .built payload ∧
      payload.entries = [written.serialize] ∧
      (∃ before, before <+: moves ∧
        PayloadOf oneBehind (run oneBehind (.ofJournal new) before).journal payload) ∧
      ∀ before, before <+: moves → (run oneBehind (.ofJournal new) before).phase.Sane := by
  obtain ⟨new, hnew⟩ : ∃ new, obliterate (ascii "id") [⟨ascii "s1", 7776⟩] 5 = .ok new := ⟨_, rfl⟩
  obtain ⟨hgood, hfits⟩ := sound_written hnew
  have hrows : Stores twoRows (new.after (.append 6 written)) := by
    have hdb : entryRows hgood hfits.size = twoRows := by
      obtain rfl := Except.ok.inj hnew
      rfl
    rw [← hdb]
    exact stores_entryRows hgood hfits.size
  generalize hmoves : ([.read twoRows, .read twoRows, .call (.append 6 written), .settle,
    .read twoRows, .read twoRows, .read twoRows, .read twoRows] : List Move) = moves
  have hp : Along oneBehind Possible (.ofJournal new) moves := by
    subst hmoves
    obtain rfl := Except.ok.inj hnew
    exact ⟨nofun, nofun, ⟨fun _ => rfl, hfits⟩, trivial, nofun, fun _ _ _ _ => hrows,
      fun _ _ _ _ => hrows, fun _ _ _ _ => hrows, trivial⟩
  have hu : Along oneBehind (Undisturbed oneBehind) (.ofJournal new) moves := by
    subst hmoves
    obtain rfl := Except.ok.inj hnew
    refine ⟨fun _ _ => ?_, fun _ _ => ?_, trivial, trivial, fun _ _ => ?_, fun _ _ => ?_,
      fun _ _ => ?_, fun _ _ => ?_, trivial⟩ <;> decide
  have hbuilt : (run oneBehind (.ofJournal new) moves).phase = .built
      { prevTerm := 0, commitIndex := 5, payloadSize := 1, entries := [written.serialize]
        lastEntryTerm := 0 } := by
    subst hmoves
    obtain rfl := Except.ok.inj hnew
    decide +kernel
  obtain ⟨hpart, hsane, hlong⟩ :=
    a_payload_is_of_one_journal_and_its_size_is_not_negative_iff
      (good_obliterate (by decide) hnew) (fits_new hnew) moves hp
  exact ⟨new, hnew, moves, _, rfl, hbuilt, rfl, hpart _ hbuilt, hsane.mpr (hlong hu)⟩

end PayloadReads

end quarkdb
