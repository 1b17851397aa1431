-- Scans of the journal: RAFT_JOURNAL_SCAN reads the entries page by page, with an iterator that
-- counts the index of the entry it stands at, and compares it with the key.
import QuarkDB.JournalLaws
import QuarkDB.RaftTalker
import QuarkDB.ScanCommands
import QuarkDB.Scans

namespace quarkdb

open Endian Paging ByteOrder

structure RaftEntryWithIndex where
  entry : RaftEntry
  index : Int
  deriving Repr, DecidableEq

namespace RaftJournal

/-! ## The iterator -/

def encodeEntryKey (index : Int) : Bytes := ascii "E" ++ bigInt index

def parseEntryKey : Bytes → Option Int
  | [] => none
  | c :: index =>
    if (c :: index).length ≠ 1 + 8 then none
    else if c ≠ 69 then none
    else some (ofBigInt index)

structure Iterator where
  /-- The rows from where the iterator stands, unless it was reset. -/
  iter : Option (List (Bytes × Bytes))
  currentIndex : Int

namespace Iterator

def valid (it : Iterator) : Bool := it.iter.any fun rows => !rows.isEmpty

def validate (it : Iterator) : Except Fault Iterator :=
  match it.iter with
  | some ((key, _) :: _) =>
    if key.head? ≠ some 69 then .ok { it with iter := none }
    else do
      qdbAssert (key = encodeEntryKey it.currentIndex)
        "iter->key() == encodeEntryKey(currentIndex)"
      return it
  | _ => .error (.assertion "this->valid()")

def next (it : Iterator) : Except Fault Iterator :=
  match it.iter with
  | some (_ :: []) => .ok { it with iter := some [] }
  | some (_ :: rest) => validate { iter := some rest, currentIndex := it.currentIndex + 1 }
  | _ => .error (.assertion "this->valid()")

def current (it : Iterator) : Except Fault Bytes :=
  match it.iter with
  | some ((_, value) :: _) => .ok value
  | _ => .error (.assertion "this->valid()")

end Iterator

def getIterator (db : Database) (startingPoint : Int) (mustMatchStartingPoint : Bool) :
    Except Fault Iterator :=
  match db.seek (encodeEntryKey startingPoint) with
  | [] => .ok { iter := none, currentIndex := startingPoint }
  | (key, value) :: rest =>
    if mustMatchStartingPoint ∧ key ≠ encodeEntryKey startingPoint then
      .ok { iter := none, currentIndex := startingPoint }
    else
      -- Figure out which index we ended up on.
      match parseEntryKey key with
      | none => .ok { iter := none, currentIndex := startingPoint }
      | some index =>
        Iterator.validate { iter := some ((key, value) :: rest), currentIndex := index }

/-! ## The scan -/

/-- A count that a request can ask for. -/
def IsScanCount (count : Nat) : Prop := 1 ≤ count ∧ count < 2 ^ 63 - 1

section

-- Glob matching: the pattern first.
variable (stringmatchlen : Bytes → Bytes → Bool)

/-- The loop of `scanContents`. -/
def scanLoop (pattern : Bytes) :
    Nat → Iterator → Except Fault (List RaftEntryWithIndex × Iterator)
  | 0, iter => .ok ([], iter)
  | count + 1, iter =>
    if !iter.valid then .ok ([], iter)
    else do
      let item ← iter.current
      let found ←
        if pattern.isEmpty || stringmatchlen pattern item then do
          let entry ← RaftEntry.deserialize item
          pure [⟨entry, iter.currentIndex⟩]
        else pure []
      let (out, iter) ← scanLoop pattern count (← iter.next)
      return (found ++ out, iter)

def scanContents (db : Database) (startingPoint : Int) (count : Nat) (pattern : Bytes) :
    Except Fault (List RaftEntryWithIndex × Int) := do
  let (out, iter) ← scanLoop stringmatchlen pattern count (← getIterator db startingPoint false)
  return (out, if iter.valid then iter.currentIndex else 0)

/-- What the command answers. -/
inductive ScanReply
  | errArgs (name : Bytes)
  | err (message : Bytes)
  | journalScan (cursor : Int) (entries : List RaftEntryWithIndex)
  deriving DecidableEq

def dispatchJournalScan (db : Database) (req : RedisRequest) : Except Fault ScanReply :=
  match req with
  | [] => .error .outOfBounds
  | [name] => .ok (.errArgs name)
  | _ :: rest => do
    let args ← parseScanCommand true false rest
    if args.error ≠ [] then return .err args.error
    else
      match parseInt64 args.cursor with
      | none => return .err (ascii "invalid cursor: " ++ args.cursor)
      | some cursor =>
        let (entries, nextCursor) ←
          scanContents stringmatchlen db cursor (word args.count) args.pattern
        return .journalScan nextCursor entries

/-- The marker of the next page, as `Formatter::journalScan` writes it. -/
def scanMarker (cursor : Int) : Bytes :=
  if cursor = 0 then ascii "0" else ascii "next:" ++ decimal cursor

/-- A request for so many entries that match the pattern. -/
def AsksFor (pattern : Bytes) (count : Nat) (options : List Bytes) : Prop :=
  ∀ cursor, parseScanOptions true false { cursor } options = { cursor, count, pattern }

/-- Such a request, from the cursor on, is answered with these entries and with the cursor
`next`. -/
def ScanPage (db : Database) (pattern : Bytes) (cursor count : Nat) (out : List RaftEntryWithIndex)
    (next : Nat) : Prop :=
  ∃ name options, AsksFor pattern count options ∧
    dispatchJournalScan stringmatchlen db (name :: scanMarker cursor :: options) =
      .ok (.journalScan next out)

end

/-- The rows of the database that begin with `E` are the entries of the journal. -/
def Stores (db : Database) (j : RaftJournal) : Prop :=
  ∀ name value, db.get (ascii "E" ++ name) = some value ↔
    ∃ index entry, j.fetch index = some entry ∧ name = bigInt index ∧ value = entry.serialize

/-- The entries of the journal, in the order of their indices. -/
def storedEntries (j : RaftJournal) : List RaftEntryWithIndex :=
  (List.range (j.logSize - j.logStart).toNat).filterMap fun (k : Nat) =>
    (j.fetch (j.logStart + k)).map fun entry => ⟨entry, j.logStart + k⟩

/-! ## Rows and entries -/

/-- The row of an entry. -/
def rowOf (e : RaftEntryWithIndex) : Bytes × Bytes := (encodeEntryKey e.index, e.entry.serialize)

theorem encodeEntryKey_eq (index : Int) : encodeEntryKey index = 69 :: bigInt index := by
  have hE : ascii "E" = [69] := by decide
  rw [encodeEntryKey, hE, List.singleton_append]

/-- The indices go up by one. -/
def Consecutive : Int → List RaftEntryWithIndex → Prop
  | _, [] => True
  | index, e :: es => e.index = index ∧ Consecutive (index + 1) es

section

variable {first : Int} {es es' : List RaftEntryWithIndex} {e : RaftEntryWithIndex}

theorem Consecutive.append_right (h : Consecutive first (es ++ es')) :
    Consecutive (first + es.length) es' := by
  induction es generalizing first with
  | nil =>
    rw [List.length_nil, Nat.cast_zero, Int.add_zero]
    exact h
  | cons e es ih =>
    have hrest := ih h.2
    rw [List.length_cons, Nat.cast_succ, Int.add_comm (es.length : Int) 1, ← Int.add_assoc]
    exact hrest

theorem Consecutive.le (h : Consecutive first es) (he : e ∈ es) : first ≤ e.index := by
  induction es generalizing first with
  | nil => cases he
  | cons a es ih =>
    rcases List.mem_cons.mp he with rfl | he
    · exact le_of_eq h.1.symm
    · have := ih h.2 he
      omega

theorem Consecutive.pairwise (h : Consecutive first es) :
    es.Pairwise fun a b => a.index < b.index := by
  induction es generalizing first with
  | nil => exact List.Pairwise.nil
  | cons a es ih =>
    refine List.pairwise_cons.mpr ⟨fun b hb => ?_, ih h.2⟩
    have hle := h.2.le hb
    have ha := h.1
    omega

theorem consecutive_map_range (entry : Nat → RaftEntry) (first : Int) (start n : Nat) :
    Consecutive (first + start)
      ((List.range' start n).map fun (k : Nat) => ⟨entry k, first + k⟩) := by
  induction n generalizing start with
  | zero => trivial
  | succ n ih =>
    have hrest := ih (start + 1)
    rw [Nat.cast_succ, ← Int.add_assoc] at hrest
    rw [List.range'_succ, List.map_cons]
    exact ⟨rfl, hrest⟩

end

/-- The order of the keys is that of the indices. -/
theorem bigInt_lt_bigInt {a b : Int} (ha : 0 ≤ a) (ha' : a < 2 ^ 63) (hb : 0 ≤ b)
    (hb' : b < 2 ^ 63) : bigInt a < bigInt b ↔ a < b := by
  have hval : ∀ x, ofLittle (bigInt x).reverse = word x := by
    intro x
    unfold bigInt
    rw [List.reverse_reverse, ofLittle_toLittle (word_lt x)]
  rw [lt_iff_of_length_eq (by simp), hval, hval]
  unfold word
  omega

section

variable {j : RaftJournal} {db : Database}

theorem mem_storedEntries (hj : Good j) {e : RaftEntryWithIndex} :
    e ∈ storedEntries j ↔ j.fetch e.index = some e.entry := by
  unfold storedEntries
  rw [List.mem_filterMap]
  constructor
  · rintro ⟨k, -, hk⟩
    obtain ⟨entry, hf, rfl⟩ := Option.map_eq_some_iff.mp hk
    exact hf
  · intro hf
    obtain ⟨h1, h2⟩ := (hj.stored e.index).mp (Option.isSome_of_eq_some hf)
    refine ⟨(e.index - j.logStart).toNat, List.mem_range.mpr (by omega), ?_⟩
    rw [show j.logStart + ((e.index - j.logStart).toNat : Int) = e.index by omega, hf]
    rfl

theorem consecutive_storedEntries (hj : Good j) : Consecutive j.logStart (storedEntries j) := by
  have hmap : storedEntries j = (List.range' 0 (j.logSize - j.logStart).toNat).map
      fun (k : Nat) => ⟨(j.fetch (j.logStart + k)).getD default, j.logStart + k⟩ := by
    unfold storedEntries
    rw [List.range_eq_range', ← List.filterMap_eq_map]
    apply List.filterMap_congr
    intro k hk
    have hlt := (List.mem_range'_1.mp hk).2
    obtain ⟨entry, hf⟩ := Option.isSome_iff_exists.mp
      ((hj.stored (j.logStart + k)).mpr ⟨by omega, by omega⟩)
    have hf' : j.fetch (j.logStart + k) = some entry := hf
    simp [hf']
  have h := consecutive_map_range (fun k => (j.fetch (j.logStart + k)).getD default) j.logStart 0
    (j.logSize - j.logStart).toNat
  rw [Nat.cast_zero, Int.add_zero] at h
  rw [hmap]
  exact h

/-- The indices are those of a journal. -/
theorem index_bounds (hj : Good j) (hfits : InWord j.logSize) {e : RaftEntryWithIndex}
    (he : e ∈ storedEntries j) : 0 ≤ e.index ∧ e.index < 2 ^ 63 - 1 := by
  have hf := (mem_storedEntries hj).mp he
  obtain ⟨h1, h2⟩ := (hj.stored e.index).mp (Option.isSome_of_eq_some hf)
  have h3 := hj.start_nonneg
  have h4 := hfits.2
  omega

theorem pairwise_bigInt (hj : Good j) (hfits : InWord j.logSize) :
    (storedEntries j).Pairwise fun a b => bigInt a.index < bigInt b.index := by
  refine (consecutive_storedEntries hj).pairwise.imp_of_mem fun {a b} ha hb hlt => ?_
  have h1 := index_bounds hj hfits ha
  have h2 := index_bounds hj hfits hb
  exact (bigInt_lt_bigInt h1.1 (by omega) h2.1 (by omega)).mpr hlt

theorem sorted_rowOf (hj : Good j) (hfits : InWord j.logSize) :
    Sorted Prod.fst ((storedEntries j).map rowOf) := by
  apply List.pairwise_map.mpr
  exact (pairwise_bigInt hj hfits).imp (append_lt_append (ascii "E")).mpr

/-- A database with the entries of a journal and nothing else. -/
def entryRows (hj : Good j) (hfits : InWord j.logSize) : Database :=
  ⟨(storedEntries j).map rowOf, sorted_rowOf hj hfits⟩

theorem stores_entryRows (hj : Good j) (hfits : InWord j.logSize) :
    Stores (entryRows hj hfits) j := by
  intro name value
  rw [← Database.mem_rows_iff]
  constructor
  · intro hmem
    obtain ⟨e, he, hrow⟩ := List.mem_map.mp hmem
    obtain ⟨hkey, rfl⟩ := Prod.mk.inj hrow
    exact ⟨e.index, e.entry, (mem_storedEntries hj).mp he, (List.append_cancel_left hkey).symm, rfl⟩
  · rintro ⟨index, entry, hf, rfl, rfl⟩
    exact List.mem_map.mpr ⟨⟨entry, index⟩, (mem_storedEntries hj).mpr hf, rfl⟩

theorem under_eq (hj : Good j) (hfits : InWord j.logSize) (hdb : Stores db j) :
    db.under (ascii "E") =
      (storedEntries j).map fun e => (bigInt e.index, e.entry.serialize) := by
  apply (db.sorted_under (ascii "E")).eq_of_mem_iff
  · exact List.pairwise_map.mpr (pairwise_bigInt hj hfits)
  · rintro ⟨name, value⟩
    rw [Database.mem_under_iff, hdb, List.mem_map]
    constructor
    · rintro ⟨index, entry, hf, rfl, rfl⟩
      exact ⟨⟨entry, index⟩, (mem_storedEntries hj).mpr hf, rfl⟩
    · rintro ⟨e, he, hrow⟩
      cases hrow
      exact ⟨e.index, e.entry, (mem_storedEntries hj).mp he, rfl, rfl⟩

/-- From an index on there are rows of entries, and then no more. -/
theorem seek_eq (hj : Good j) (hfits : InWord j.logSize) (hdb : Stores db j) {cursor : Nat}
    (hc : (cursor : Int) < 2 ^ 63) :
    ∃ others, db.seek (encodeEntryKey cursor) =
        (since (fun e => e.index.toNat) (storedEntries j) cursor).map rowOf ++ others ∧
      ∀ row ∈ others.head?, row.1.head? ≠ some 69 := by
  have hsince : since Prod.fst ((storedEntries j).map fun e => (bigInt e.index, e.entry.serialize))
      (bigInt cursor) = (since (fun e => e.index.toNat) (storedEntries j) cursor).map
        fun e => (bigInt e.index, e.entry.serialize) := by
    apply since_map
    intro e he
    have hi := index_bounds hj hfits he
    rw [bigInt_lt_bigInt hi.1 (by omega) (by omega) hc]
    omega
  have htake := db.takeWhile_seek (ascii "E") (bigInt cursor)
  rw [under_eq hj hfits hdb, hsince, List.map_map] at htake
  refine ⟨(db.seek (encodeEntryKey cursor)).dropWhile (fun row => ascii "E" <+: row.1), ?_, ?_⟩
  · have hsplit := List.takeWhile_append_dropWhile
      (p := fun row : Bytes × Bytes => decide (ascii "E" <+: row.1))
      (l := db.seek (encodeEntryKey cursor))
    exact hsplit.symm.trans (congrArg (· ++ _) htake)
  · intro row hrow hE
    have hnot := List.head?_dropWhile_not (fun row : Bytes × Bytes => decide (ascii "E" <+: row.1))
      (db.seek (encodeEntryKey cursor))
    rw [Option.mem_def.mp hrow] at hnot
    obtain ⟨rest, hrest⟩ : ∃ rest, row.1 = 69 :: rest := List.head?_eq_some_iff.mp hE
    have hprefix : ascii "E" <+: row.1 := ⟨rest, by rw [hrest]; rfl⟩
    exact absurd hprefix (of_decide_eq_false (by simpa using hnot))

end

/-! ## The iterator stands at an entry -/

section

variable {db : Database} {j : RaftJournal} {others : List (Bytes × Bytes)} {it : Iterator}
  {e : RaftEntryWithIndex} {es : List RaftEntryWithIndex} {first : Int}

/-- The iterator stands at the first of these entries, with other rows after them; or it is not
valid, if there are none. -/
def At (others : List (Bytes × Bytes)) : List RaftEntryWithIndex → Iterator → Prop
  | [], it => it.valid = false
  | e :: es, it => it = { iter := some ((e :: es).map rowOf ++ others), currentIndex := e.index }

/-- A row of an entry passes, any other resets the iterator. -/
theorem validate_at (h : ∀ row ∈ others.head?, row.1.head? ≠ some 69)
    (hne : es.map rowOf ++ others ≠ []) (hc : Consecutive first es) :
    ∃ it, Iterator.validate { iter := some (es.map rowOf ++ others), currentIndex := first } =
      .ok it ∧ At others es it := by
  cases es with
  | nil =>
    obtain ⟨row, rest, hrow⟩ := List.exists_cons_of_ne_nil hne
    have hno := h row (by rw [show others = row :: rest from hrow]; rfl)
    refine ⟨{ iter := none, currentIndex := first }, ?_, rfl⟩
    unfold Iterator.validate
    rw [hrow]
    exact if_pos hno
  | cons e es =>
    obtain ⟨rfl, -⟩ := hc
    have hhead : (encodeEntryKey e.index).head? = some 69 := by
      rw [encodeEntryKey_eq]
      rfl
    refine ⟨_, ?_, rfl⟩
    unfold Iterator.validate
    show (if (encodeEntryKey e.index).head? ≠ some 69 then _ else _) = _
    rw [if_neg (not_not.mpr hhead)]
    show (qdbAssert (decide (encodeEntryKey e.index = encodeEntryKey e.index)) _ >>= _) = _
    rw [decide_eq_true rfl]
    rfl

theorem next_at (h : ∀ row ∈ others.head?, row.1.head? ≠ some 69) (hat : At others (e :: es) it)
    (hc : Consecutive first (e :: es)) : ∃ it', it.next = .ok it' ∧ At others es it' := by
  obtain ⟨rfl, hrest⟩ := hc
  obtain rfl : it = _ := hat
  by_cases hne : es.map rowOf ++ others = []
  · obtain ⟨hes, rfl⟩ := List.append_eq_nil_iff.mp hne
    obtain rfl := List.map_eq_nil_iff.mp hes
    exact ⟨_, rfl, rfl⟩
  · obtain ⟨it', hv, hat'⟩ := validate_at h hne hrest
    obtain ⟨row, rest, hrow⟩ := List.exists_cons_of_ne_nil hne
    refine ⟨it', ?_, hat'⟩
    rw [hrow] at hv
    unfold Iterator.next
    rw [List.map_cons, List.cons_append, hrow]
    exact hv

theorem parseEntryKey_of_head {key : Bytes} (h : key.head? ≠ some 69) :
    parseEntryKey key = none := by
  cases key with
  | nil => rfl
  | cons c index =>
    have hc : c ≠ 69 := fun he => h (by rw [he]; rfl)
    rw [parseEntryKey, if_pos hc, ite_self]

theorem parseEntryKey_encodeEntryKey {index : Int} (h : 0 ≤ index) (h' : index < 2 ^ 63) :
    parseEntryKey (encodeEntryKey index) = some index := by
  have hlen : ¬ (69 :: bigInt index).length ≠ 1 + 8 := by simp
  rw [encodeEntryKey_eq, parseEntryKey, if_neg hlen, if_neg (by simp),
    ofBigInt_bigInt (by omega) (by omega)]

/-- The iterator begins at a row that is an entry's. -/
theorem getIterator_of_parse {startingPoint index : Int} {row : Bytes × Bytes}
    {rest : List (Bytes × Bytes)} (h : db.seek (encodeEntryKey startingPoint) = row :: rest)
    (hp : parseEntryKey row.1 = some index) :
    getIterator db startingPoint false =
      Iterator.validate { iter := some (row :: rest), currentIndex := index } := by
  simp [getIterator, h, hp]

theorem getIterator_at (h : ∀ row ∈ others.head?, row.1.head? ≠ some 69)
    {startingPoint : Int} (hseek : db.seek (encodeEntryKey startingPoint) = es.map rowOf ++ others)
    (hfit : ∀ e ∈ es, 0 ≤ e.index ∧ e.index < 2 ^ 63) (hc : Consecutive first es) :
    ∃ it, getIterator db startingPoint false = .ok it ∧ At others es it := by
  cases es with
  | nil =>
    refine ⟨{ iter := none, currentIndex := startingPoint }, ?_, rfl⟩
    cases others with
    | nil => simp [getIterator, hseek]
    | cons row rest =>
      have hno := parseEntryKey_of_head (h row rfl)
      simp [getIterator, hseek, hno]
  | cons e es =>
    have hi := hfit e List.mem_cons_self
    have hc' : Consecutive e.index (e :: es) := ⟨rfl, by rw [hc.1]; exact hc.2⟩
    obtain ⟨it, hv, hat⟩ := validate_at h (by simp) hc'
    rw [List.map_cons, List.cons_append] at hseek hv
    exact ⟨it, (getIterator_of_parse hseek (parseEntryKey_encodeEntryKey hi.1 hi.2)).trans hv, hat⟩

variable (stringmatchlen : Bytes → Bytes → Bool) (pattern : Bytes)

/-- What the scan returns of an entry. -/
def found (e : RaftEntryWithIndex) : List RaftEntryWithIndex :=
  if Matches stringmatchlen pattern e.entry.serialize then [e] else []

theorem valid_at (hat : At others (e :: es) it) : it.valid = true := by
  obtain rfl : it = _ := hat
  rfl

theorem current_at (hat : At others (e :: es) it) :
    it.current = .ok e.entry.serialize ∧ it.currentIndex = e.index := by
  obtain rfl : it = _ := hat
  exact ⟨rfl, rfl⟩

theorem matches_iff (name : Bytes) :
    Matches stringmatchlen pattern name ↔
      (pattern.isEmpty || stringmatchlen pattern name) = true := by
  simp [Matches]

theorem scanLoop_cons {it' last : Iterator} {count : Nat} {out : List RaftEntryWithIndex}
    (hs : e.entry.Storable) (hat : At others (e :: es) it) (hn : it.next = .ok it')
    (hrest : scanLoop stringmatchlen pattern count it' = .ok (out, last)) :
    scanLoop stringmatchlen pattern (count + 1) it =
      .ok (found stringmatchlen pattern e ++ out, last) := by
  obtain ⟨hcur, hindex⟩ := current_at hat
  rw [scanLoop, valid_at hat, if_neg (by simp), bind_of_ok hcur, hindex]
  unfold found
  by_cases hm : Matches stringmatchlen pattern e.entry.serialize
  · rw [if_pos hm, if_pos ((matches_iff stringmatchlen pattern _).mp hm),
      bind_of_ok (RaftEntry.deserialize_storable hs)]
    show (it.next >>= _) = _
    rw [bind_of_ok hn, bind_of_ok hrest]
    rfl
  · rw [if_neg hm, if_neg fun h => hm ((matches_iff stringmatchlen pattern _).mpr h)]
    show (it.next >>= _) = _
    rw [bind_of_ok hn, bind_of_ok hrest]
    rfl

theorem scanLoop_at (h : ∀ row ∈ others.head?, row.1.head? ≠ some 69)
    (hs : ∀ e ∈ es, e.entry.Storable) (count : Nat) (hat : At others es it)
    (hc : Consecutive first es) :
    ∃ last, scanLoop stringmatchlen pattern count it =
        .ok ((es.take count).flatMap (found stringmatchlen pattern), last) ∧
      At others (es.drop count) last := by
  induction count generalizing es it first with
  | zero => exact ⟨it, rfl, hat⟩
  | succ count ih =>
    cases es with
    | nil =>
      have hv : it.valid = false := hat
      exact ⟨it, by simp [scanLoop, hv], hat⟩
    | cons e es =>
      obtain ⟨it', hn, hat'⟩ := next_at h hat hc
      obtain ⟨last, hrest, hlast⟩ := ih (fun b hb => hs b (List.mem_cons_of_mem e hb)) hat' hc.2
      refine ⟨last, ?_, hlast⟩
      rw [List.take_succ_cons, List.flatMap_cons]
      exact scanLoop_cons stringmatchlen pattern (hs e List.mem_cons_self) hat hn hrest

/-! ## A page -/

/-- Where the scan goes on. -/
def cursorAfter : List RaftEntryWithIndex → Int
  | [] => 0
  | e :: _ => e.index

theorem cursor_at (hat : At others es it) :
    (if it.valid then it.currentIndex else 0) = cursorAfter es := by
  cases es with
  | nil =>
    have hv : it.valid = false := hat
    simp [hv, cursorAfter]
  | cons e es =>
    rw [valid_at hat, (current_at hat).2]
    rfl

/-- The journal and the database of a scan. -/
structure Scannable (db : Database) (j : RaftJournal) : Prop where
  good : Good j
  /-- The counters are those of an `int64_t`. -/
  fits : InWord j.logSize
  storable : ∀ index entry, j.fetch index = some entry → entry.Storable
  stores : Stores db j

theorem Scannable.index_bounds (h : Scannable db j) (he : e ∈ storedEntries j) :
    0 ≤ e.index ∧ e.index < 2 ^ 63 - 1 :=
  RaftJournal.index_bounds h.good h.fits he

/-- The entries from an index on. -/
def entriesSince (j : RaftJournal) (cursor : Nat) : List RaftEntryWithIndex :=
  since (fun e => e.index.toNat) (storedEntries j) cursor

theorem Scannable.scanContents_eq (h : Scannable db j) {cursor : Nat} (hc : (cursor : Int) < 2 ^ 63)
    (count : Nat) :
    scanContents stringmatchlen db cursor count pattern =
      .ok (((entriesSince j cursor).take count).flatMap (found stringmatchlen pattern),
        cursorAfter ((entriesSince j cursor).drop count)) := by
  obtain ⟨before, hbefore⟩ : entriesSince j cursor <:+ storedEntries j := since_suffix _ _ _
  have hmem : ∀ e ∈ entriesSince j cursor, e ∈ storedEntries j :=
    fun e he => hbefore ▸ List.mem_append_right before he
  have hcons := consecutive_storedEntries h.good
  rw [← hbefore] at hcons
  obtain ⟨others, hseek, hothers⟩ := seek_eq h.good h.fits h.stores hc
  obtain ⟨it, hit, hat⟩ := getIterator_at hothers hseek (fun e he => by
    have := h.index_bounds (hmem e he)
    omega) hcons.append_right
  obtain ⟨last, hloop, hlast⟩ := scanLoop_at stringmatchlen pattern hothers
    (fun e he => h.storable _ _ ((mem_storedEntries h.good).mp (hmem e he))) count hat
    hcons.append_right
  rw [scanContents, bind_of_ok hit, bind_of_ok hloop]
  exact congrArg (fun next => Except.ok (_, next)) (cursor_at hlast)

/-- The text between the calls: a cursor is read back from its marker. -/
theorem parse_scanMarker {cursor : Nat} (hc : (cursor : Int) < 2 ^ 63 - 1) {count : Nat}
    {options : List Bytes} (ho : AsksFor pattern count options) :
    ∃ text, parseScanCommand true false (scanMarker cursor :: options) =
        .ok { cursor := text, count, pattern } ∧ parseInt64 text = some (cursor : Int) := by
  have hread : parseInt64 (decimal cursor) = some (cursor : Int) :=
    parseInt64_decimal (by omega) hc
  have hmarker : scanMarker cursor = markerOf (if cursor = 0 then [] else decimal cursor) := by
    unfold scanMarker markerOf
    by_cases h0 : cursor = 0
    · simp [h0]
    · have hd : decimal (cursor : Int) ≠ [] := by
        intro he
        rw [he] at hread
        have := Option.some.inj hread
        omega
      simp [h0, hd]
  refine ⟨if cursor = 0 then [] else decimal cursor, ?_, ?_⟩
  · rw [hmarker, parseScanCommand_markerOf, ho]
  · by_cases h0 : cursor = 0
    · rw [if_pos h0, h0]
      rfl
    · rw [if_neg h0]
      exact hread

theorem Scannable.dispatch_eq (h : Scannable db j) {cursor count : Nat}
    (hc : (cursor : Int) < 2 ^ 63 - 1) (hn : IsScanCount count) (name : Bytes)
    {options : List Bytes} (ho : AsksFor pattern count options) :
    dispatchJournalScan stringmatchlen db (name :: scanMarker cursor :: options) =
      .ok (.journalScan (cursorAfter ((entriesSince j cursor).drop count))
        (((entriesSince j cursor).take count).flatMap (found stringmatchlen pattern))) := by
  obtain ⟨text, hparse, hcursor⟩ := parse_scanMarker pattern hc ho
  have hword : word (count : Int) = count := by
    have h2 := hn.2
    unfold word
    omega
  rw [dispatchJournalScan, bind_of_ok hparse, if_neg (by simp), hcursor, hword]
  · dsimp only
    rw [bind_of_ok (h.scanContents_eq stringmatchlen pattern (by omega) count)]
    rfl
  · exact List.cons_ne_nil _ _

/-! ## All pages -/

/-- A request in decimal. -/
theorem asksFor_count_match {count : Nat} (hn : IsScanCount count) :
    AsksFor pattern count [ascii "COUNT", decimal count, ascii "MATCH", pattern] := by
  intro cursor
  have h1 : caseInsensitiveEquals (ascii "MATCH") (ascii "count") = false := by decide
  have h2 : caseInsensitiveEquals (ascii "MATCH") (ascii "match") = true := by decide
  rw [parseScanOptions_count hn.1 hn.2]
  simp [parseScanOptions, h1, h2]

theorem cursorAfter_eq (h : ∀ e ∈ es, 0 ≤ e.index) :
    cursorAfter es = (cursorOf (fun e => e.index.toNat) es : Nat) := by
  cases es with
  | nil => rfl
  | cons e es => exact (Int.toNat_of_nonneg (h e List.mem_cons_self)).symm

theorem Scannable.pages (h : Scannable db j) :
    Pages (fun e => e.index.toNat) (found stringmatchlen pattern)
      (ScanPage stringmatchlen db pattern) IsScanCount (fun cursor => (cursor : Int) < 2 ^ 63 - 1)
      (storedEntries j) := by
  have hcursor : ∀ cursor count : Nat, cursorAfter ((entriesSince j cursor).drop count) =
      (cursorOf (fun e => e.index.toNat) ((entriesSince j cursor).drop count) : Nat) :=
    fun cursor count => cursorAfter_eq fun e he => (h.index_bounds
      ((since_suffix _ _ _).subset (List.mem_of_mem_drop he))).1
  refine ⟨?_, fun e he => ?_, fun cursor count hn hc => ?_,
    fun cursor count out next hn hc hp => ?_⟩
  · refine (consecutive_storedEntries h.good).pairwise.imp_of_mem fun {a b} ha hb hlt => ?_
    have h1 := h.index_bounds ha
    have h2 := h.index_bounds hb
    show a.index.toNat < b.index.toNat
    omega
  · have := h.index_bounds he
    omega
  · have hd := h.dispatch_eq stringmatchlen pattern hc hn [] (asksFor_count_match pattern hn)
    rw [hcursor] at hd
    exact ⟨_, _, [], _, asksFor_count_match pattern hn, hd⟩
  · obtain ⟨name, options, ho, hd⟩ := hp
    rw [h.dispatch_eq stringmatchlen pattern hc hn name ho, hcursor] at hd
    obtain ⟨hnext, rfl⟩ := ScanReply.journalScan.inj (Except.ok.inj hd)
    refine ⟨(entriesSince j cursor).take count, (entriesSince j cursor).drop count,
      (List.take_append_drop count _).symm, rfl, (Int.ofNat_inj.mp hnext).symm, fun hne hnil => ?_⟩
    have h1 := hn.1
    rcases List.take_eq_nil_iff.mp hnil with h0 | h0
    · omega
    · rw [h0, List.drop_nil] at hne
      exact hne rfl

theorem flatMap_found : es.flatMap (found stringmatchlen pattern) =
    es.filter fun e => Matches stringmatchlen pattern e.entry.serialize := by
  induction es with
  | nil => rfl
  | cons e es ih =>
    rw [List.flatMap_cons, ih, found]
    by_cases hm : Matches stringmatchlen pattern e.entry.serialize
    · simp [hm]
    · simp [hm]

/-- Every request is answered, also the one for the next page; and the pages together are the
entries that match, each once and in the order of their indices. -/
theorem a_scan_of_the_journal_reads_all_entries (h : Scannable db j) :
    (∀ cursor count : Nat, (cursor : Int) < 2 ^ 63 - 1 → IsScanCount count →
      ∀ name options, AsksFor pattern count options →
        ∃ (out : List RaftEntryWithIndex) (next : Nat),
        dispatchJournalScan stringmatchlen db (name :: scanMarker cursor :: options) =
          .ok (.journalScan next out) ∧ (next : Int) < 2 ^ 63 - 1) ∧
    ∃ all : List RaftEntryWithIndex,
      ReadsAll (ScanPage stringmatchlen db pattern) IsScanCount all ∧
      all.Pairwise (fun a b => a.index < b.index) ∧
      ∀ e, e ∈ all ↔ j.fetch e.index = some e.entry ∧
        Matches stringmatchlen pattern e.entry.serialize := by
  have hpages := h.pages stringmatchlen pattern
  refine ⟨fun cursor count hc hn name options ho => ?_,
    (storedEntries j).flatMap (found stringmatchlen pattern), hpages.readsAll (by decide), ?_, ?_⟩
  · have hmem : ∀ e ∈ (entriesSince j cursor).drop count, e ∈ storedEntries j :=
      fun e he => (since_suffix _ _ _).subset (List.mem_of_mem_drop he)
    have hd := h.dispatch_eq stringmatchlen pattern hc hn name ho
    rw [cursorAfter_eq fun e he => (h.index_bounds (hmem e he)).1] at hd
    refine ⟨_, _, hd, ?_⟩
    generalize (entriesSince j cursor).drop count = rest at hmem
    cases rest with
    | nil => decide
    | cons e rest =>
      have hi := h.index_bounds (hmem e List.mem_cons_self)
      show (e.index.toNat : Int) < _
      omega
  · rw [flatMap_found]
    exact (consecutive_storedEntries h.good).pairwise.filter _
  · intro e
    rw [flatMap_found, List.mem_filter, decide_eq_true_iff, mem_storedEntries h.good]

end

/-! ## A new journal -/

/-- The entry that a new journal begins with. -/
def firstEntry : RaftEntry :=
  updateMembersEntry 0 { nodes := [⟨ascii "s1", 7776⟩], observers := [] } (ascii "id")

/-- The rows of a journal that begins at index five. -/
def newRows : Database :=
  ⟨[(encodeEntryKey 5, firstEntry.serialize), (ascii "RAFT_CLUSTER_ID", ascii "id")],
    by decide +kernel⟩

theorem fetch_new {j : RaftJournal}
    (hj : obliterate (ascii "id") [⟨ascii "s1", 7776⟩] 5 = .ok j) (index : Int) :
    j.fetch index = if index = 5 then some firstEntry else none := by
  obtain rfl := Except.ok.inj hj
  rfl

theorem storable_new {j : RaftJournal}
    (hj : obliterate (ascii "id") [⟨ascii "s1", 7776⟩] 5 = .ok j) (index : Int)
    (entry : RaftEntry) (hf : j.fetch index = some entry) : entry.Storable := by
  rw [fetch_new hj] at hf
  split at hf
  · obtain rfl := Option.some.inj hf
    exact ⟨⟨by decide, by decide⟩, by decide +kernel⟩
  · cases hf

/-- What the next entry of a new journal is. -/
def written : RaftEntry := ⟨0, [ascii "SET", ascii "k", ascii "v"]⟩

theorem storable_written : written.Storable := ⟨⟨by decide, by decide⟩, by decide +kernel⟩

/-- The rows of the new journal with the next entry. -/
def twoRows : Database :=
  ⟨[(encodeEntryKey 5, firstEntry.serialize), (encodeEntryKey 6, written.serialize),
    (ascii "RAFT_CLUSTER_ID", ascii "id")], by decide +kernel⟩

theorem twoRows_get_entry (name : Bytes) :
    twoRows.get (ascii "E" ++ name) =
      if name = bigInt 5 then some firstEntry.serialize
      else if name = bigInt 6 then some written.serialize else none := by
  have hE : ascii "E" = [69] := by decide
  have hR : ascii "RAFT_CLUSTER_ID" = 82 :: ascii "AFT_CLUSTER_ID" := by decide +kernel
  have hne : bigInt 5 ≠ bigInt 6 := by decide
  by_cases h5 : name = bigInt 5
  · simp [Database.get, twoRows, h5, encodeEntryKey]
  have h5' : bigInt 5 ≠ name := fun he => h5 he.symm
  by_cases h6 : name = bigInt 6
  · simp [Database.get, twoRows, h6, encodeEntryKey, hne, hne.symm]
  · have h6' : bigInt 6 ≠ name := fun he => h6 he.symm
    simp [Database.get, twoRows, hE, hR, h5, h6, h5', h6', encodeEntryKey]

theorem fetch_written {j : RaftJournal}
    (hj : obliterate (ascii "id") [⟨ascii "s1", 7776⟩] 5 = .ok j) (index : Int) :
    (j.after (.append 6 written)).fetch index =
      if index = 6 then some written else if index = 5 then some firstEntry else none := by
  obtain rfl := Except.ok.inj hj
  rfl

/-- Two entries, read by one page each: the cursor of the first page leads to the second. -/
theorem the_entries_of_a_journal_are_scanned_page_by_page :
    ∃ j, Scannable twoRows j ∧
      dispatchJournalScan (fun _ _ => true) twoRows
          [ascii "RAFT_JOURNAL_SCAN", ascii "0", ascii "COUNT", ascii "1"] =
        .ok (.journalScan 6 [⟨firstEntry, 5⟩]) ∧
      dispatchJournalScan (fun _ _ => true) twoRows
          [ascii "RAFT_JOURNAL_SCAN", ascii "next:6", ascii "COUNT", ascii "1"] =
        .ok (.journalScan 0 [⟨written, 6⟩]) ∧
      ∃ all, ReadsAll (ScanPage (fun _ _ => true) twoRows []) IsScanCount all ∧
        ∀ e, e ∈ all ↔ j.fetch e.index = some e.entry ∧
          Matches (fun _ _ => true) [] e.entry.serialize := by
  obtain ⟨new, hnew⟩ : ∃ new, obliterate (ascii "id") [⟨ascii "s1", 7776⟩] 5 = .ok new := ⟨_, rfl⟩
  have hscan : Scannable twoRows (new.after (.append 6 written)) := by
    refine ⟨(good_after (good_obliterate (by decide) hnew) _).1, ?_, fun index entry hf => ?_,
      fun name value => ?_⟩
    · obtain rfl := Except.ok.inj hnew
      decide
    · rw [fetch_written hnew] at hf
      split at hf
      · obtain rfl := Option.some.inj hf
        exact storable_written
      · exact storable_new hnew index entry (by rwa [fetch_new hnew])
    · rw [twoRows_get_entry]
      constructor
      · intro h
        split at h
        · rename_i hname
          exact ⟨5, firstEntry, by rw [fetch_written hnew]; rfl, hname, (Option.some.inj h).symm⟩
        split at h
        · rename_i hname
          exact ⟨6, written, by rw [fetch_written hnew]; rfl, hname, (Option.some.inj h).symm⟩
        · cases h
      · rintro ⟨index, entry, hf, rfl, rfl⟩
        rw [fetch_written hnew] at hf
        split at hf
        · rename_i hindex
          obtain rfl := Option.some.inj hf
          rw [hindex, if_neg (by decide), if_pos rfl]
        split at hf
        · rename_i hindex
          obtain rfl := Option.some.inj hf
          rw [hindex, if_pos rfl]
        · cases hf
  obtain ⟨-, all, hall, -, hmem⟩ :=
    a_scan_of_the_journal_reads_all_entries (fun _ _ => true) [] hscan
  refine ⟨_, hscan, ?_, ?_, all, hall, hmem⟩
  · decide +kernel
  · decide +kernel

end RaftJournal

end quarkdb
