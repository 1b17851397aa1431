-- LHSCAN: pages of a locality hash, with a pattern for the hints. A later page looks at
-- the hint of its cursor only when the pattern begins with literal characters, and a '#'
-- among these finds nothing, so that entries that match can be lost. And a cursor that reads
-- as a long hint without a field makes the next page use what its locator has freed.
import QuarkDB.ReverseLocator
import QuarkDB.Scans

namespace quarkdb

open Paging ByteOrder

/-! ## The command -/

namespace Database

/-- The loop of `lhscan`. -/
def lhscanLoop (stringmatchlen : Bytes → Bytes → Bool) (matchloc : Bytes) (keyPrefixSize : Nat)
    (requiredPrefix : Bytes) (limit : Nat) :
    List (Bytes × Bytes) → List Bytes → Except Fault (Bytes × List Bytes)
  | [], results => .ok ([], results)
  | (rocksdbKey, value) :: rows, results =>
    if ¬ requiredPrefix <+: rocksdbKey then .ok ([], results)
    else do
      let hintPlusField := rocksdbKey.drop keyPrefixSize
      let splitter ← EscapedPrefixExtractor.parse hintPlusField
      qdbAssert splitter.parsingOk "splitter.parse(hintPlusField)"
      if limit ≤ results.length then return (hintPlusField, results)
      let localityHint ← splitter.getOriginalPrefix
      let emptyPattern := matchloc = [] ∨ matchloc = ascii "*"
      if emptyPattern ∨ stringmatchlen matchloc localityHint = true then
        lhscanLoop stringmatchlen matchloc keyPrefixSize requiredPrefix limit rows
          (results ++ [localityHint, ← splitter.getRawSuffix, value])
      else lhscanLoop stringmatchlen matchloc keyPrefixSize requiredPrefix limit rows results

/-- The second half of `lhscan`: from where to scan, and what every key must begin with.
The product with `count` is one of 64-bit numbers. -/
def lhscanFrom (stringmatchlen : Bytes → Bytes → Bool) (db : Database) (matchloc : Bytes)
    (count keyPrefixSize : Nat) (requiredPrefix scanStart : Bytes) :
    Except Fault (Status × Bytes × List Bytes) := do
  let result ← lhscanLoop stringmatchlen matchloc keyPrefixSize requiredPrefix
    (count * 3 % 2 ^ 64) (db.seek scanStart) []
  return (.OK, result)

def lhscan (stringmatchlen : Bytes → Bytes → Bool) (db : Database) (key cursor matchloc : Bytes)
    (count : Nat) : Except Fault (Status × Bytes × List Bytes) := do
  if !(← db.assertKeyType key .kLocalityHash) then return (wrongType, [], [])
  let locator ← LocalityFieldLocator.resetKey key
  let patternPrefix := extractPatternPrefix matchloc
  let keyPrefixSize := locator.toView.length
  let requiredPrefix := locator.toView
  if cursor ≠ [] then
    let extractor ← EscapedPrefixExtractor.parse cursor
    if !extractor.parsingOk then return (malformed "invalid cursor", [], [])
    let hinted ← locator.resetHint (← extractor.getOriginalPrefix)
    let requiredPrefix := if patternPrefix ≠ [] then hinted.toView else requiredPrefix
    let start ← hinted.resetField (← extractor.getRawSuffix)
    lhscanFrom stringmatchlen db matchloc count keyPrefixSize requiredPrefix start.toView
  else if patternPrefix ≠ [] then
    let hinted ← locator.resetHint patternPrefix
    -- A pattern with special characters matches hints that go on after its prefix.
    let scanStart :=
      if patternPrefix.length ≠ matchloc.length then hinted.toView.dropLast.dropLast
      else hinted.toView
    lhscanFrom stringmatchlen db matchloc count keyPrefixSize (requiredPrefix ++ patternPrefix)
      scanStart
  else lhscanFrom stringmatchlen db matchloc count keyPrefixSize requiredPrefix requiredPrefix

end Database

open Database

/-! ## Entries that read back -/

/-- What stands before the name of a field: the hint, escaped, and its end. -/
def hintPrefix (hint : Bytes) : Bytes := escapeHashes hint ++ [hash, hash]

/-- The hint of an entry, as the extractor reads it. -/
def hintOf (entry : Bytes) : Bytes :=
  match EscapedPrefixExtractor.parse entry >>= EscapedPrefixExtractor.getOriginalPrefix with
  | .ok hint => hint
  | .error _ => []

/-- The name of the field of an entry, as the extractor reads it. -/
def nameOf (entry : Bytes) : Bytes :=
  match EscapedPrefixExtractor.parse entry >>= EscapedPrefixExtractor.getRawSuffix with
  | .ok name => name
  | .error _ => []

/-- The extractor reads the entry, and what it reads is written as the entry. -/
structure Readable (entry : Bytes) : Prop where
  parsed : ∃ e, EscapedPrefixExtractor.parse entry = .ok e ∧
    e.Reads (hintOf entry) (nameOf entry)
  hint_ne : hintOf entry ≠ []
  written : entry = hintPrefix (hintOf entry) ++ nameOf entry
  kept : ¬ EndIsLost (hintOf entry) (nameOf entry)

theorem readable_of_kept {hint name : Bytes} (hh : hint ≠ []) (hk : ¬ EndIsLost hint name) :
    Readable (hintPrefix hint ++ name) ∧ hintOf (hintPrefix hint ++ name) = hint ∧
      nameOf (hintPrefix hint ++ name) = name := by
  obtain ⟨e, he, hr⟩ := EscapedPrefixExtractor.parse_reads hh hk
  have hview : escapeHashes hint ++ (hash :: hash :: name) = hintPrefix hint ++ name := by
    simp [hintPrefix]
  rw [hview] at he
  have h1 : hintOf (hintPrefix hint ++ name) = hint := by
    simp only [hintOf, he, bind, Except.bind, hr.original]
  have h2 : nameOf (hintPrefix hint ++ name) = name := by
    simp only [nameOf, he, bind, Except.bind, hr.suffix]
  refine ⟨⟨?_, ?_, ?_, ?_⟩, h1, h2⟩
  · rw [h1, h2]
    exact ⟨e, he, hr⟩
  · rwa [h1]
  · rw [h1, h2]
  · rwa [h1, h2]

/-- An entry whose end is lost is also the entry of a hint that ends in '#'. -/
theorem hintPrefix_lost {hint name : Bytes} (hn : name ≠ []) (hl : EndIsLost hint name) :
    ∃ stem rest, hint = stem ++ [bar] ∧ name = hash :: rest ∧
      hintPrefix hint ++ name = hintPrefix (stem ++ [hash]) ++ rest := by
  obtain ⟨hlast, hf⟩ := hl
  obtain ⟨stem, rfl⟩ := List.getLast?_eq_some_iff.mp hlast
  obtain ⟨c, rest, rfl⟩ := List.exists_cons_of_ne_nil hn
  obtain rfl : c = hash := by simpa using hf
  refine ⟨stem, rest, rfl, rfl, ?_⟩
  simp [hintPrefix, escapeHashes_append, bar_ne_hash]

theorem readable_of_written {hint name : Bytes} (hh : hint ≠ []) (hn : name ≠ []) :
    Readable (hintPrefix hint ++ name) := by
  by_cases hl : EndIsLost hint name
  · obtain ⟨stem, rest, -, -, he⟩ := hintPrefix_lost hn hl
    rw [he]
    refine (readable_of_kept (by simp) ?_).1
    rintro ⟨hb, -⟩
    simp [bar_ne_hash.symm] at hb
  · exact (readable_of_kept hh hl).1

/-- Two entries that read the same are the same. -/
theorem Readable.eq {a b : Bytes} (ha : Readable a) (hb : Readable b) (hh : hintOf a = hintOf b)
    (hn : nameOf a = nameOf b) : a = b := by
  rw [ha.written, hb.written, hh, hn]

/-- A locality hash: all that stands under its key was written for a hint and a field. -/
structure LocalityHash (db : Database) (key : Bytes) : Prop where
  key_ne : key ≠ []
  type : db.assertKeyType key .kLocalityHash = .ok true
  written : ∀ entry ∈ db.under (localityPrefix .kData key), ∃ hint name,
    hint ≠ [] ∧ name ≠ [] ∧ entry.1 = hintPrefix hint ++ name

/-- The entries of a locality hash: hint and field as they are written, and the value. -/
def entriesOf (db : Database) (key : Bytes) : List (Bytes × Bytes) :=
  db.under (localityPrefix .kData key)

theorem LocalityHash.readable {db : Database} {key : Bytes} (h : LocalityHash db key) :
    ∀ entry ∈ entriesOf db key, Readable entry.1 := by
  intro entry he
  obtain ⟨hint, name, hh, hn, hw⟩ := h.written entry he
  rw [hw]
  exact readable_of_written hh hn

/-- The record of a field under a hint is there, with this value. -/
def IsStored (db : Database) (key hint name value : Bytes) : Prop :=
  hint ≠ [] ∧ db.get (appendEscapedString (localityPrefix .kData key) hint ++ name) = some value

theorem isStored_iff {db : Database} {key hint name value : Bytes} :
    IsStored db key hint name value ↔
      hint ≠ [] ∧ (hintPrefix hint ++ name, value) ∈ entriesOf db key := by
  have hview : appendEscapedString (localityPrefix .kData key) hint ++ name =
      localityPrefix .kData key ++ (hintPrefix hint ++ name) := List.append_assoc _ _ _
  rw [IsStored, entriesOf, mem_under_iff, hview]

/-- Who goes on from the entry uses what the locator of its hint and field has freed. -/
def Stranded (key : Bytes) (entry : Bytes × Bytes) : Prop :=
  LocalityFieldLocator.Frees key (hintOf entry.1) (nameOf entry.1)

instance (key : Bytes) (entry : Bytes × Bytes) : Decidable (Stranded key entry) :=
  inferInstanceAs (Decidable (LocalityFieldLocator.Frees _ _ _))

/-! ## One page -/

section Page

variable {stringmatchlen : Bytes → Bytes → Bool}

/-- The hint of the entry matches. -/
def EntryMatches (stringmatchlen : Bytes → Bytes → Bool) (matchloc : Bytes)
    (entry : Bytes × Bytes) : Prop := Matches stringmatchlen matchloc (hintOf entry.1)

instance (stringmatchlen : Bytes → Bytes → Bool) (matchloc : Bytes) (entry : Bytes × Bytes) :
    Decidable (EntryMatches stringmatchlen matchloc entry) :=
  inferInstanceAs (Decidable (Matches _ _ _))

/-- What an entry adds to the results: the hint, the name of the field and the value. -/
def emitEntry (stringmatchlen : Bytes → Bytes → Bool) (matchloc : Bytes)
    (entry : Bytes × Bytes) : List Bytes :=
  if EntryMatches stringmatchlen matchloc entry then [hintOf entry.1, nameOf entry.1, entry.2]
  else []

theorem length_emitEntry (matchloc : Bytes) (entries : List (Bytes × Bytes)) :
    (entries.flatMap (emitEntry stringmatchlen matchloc)).length =
      3 * entries.countP fun entry => EntryMatches stringmatchlen matchloc entry := by
  induction entries with
  | nil => rfl
  | cons entry entries ih =>
    rw [List.flatMap_cons, List.length_append, ih, List.countP_cons, emitEntry]
    by_cases hm : EntryMatches stringmatchlen matchloc entry
    · simp only [hm, if_true, List.length_cons, List.length_nil, decide_true]
      omega
    · simp [hm]

/-- The entries that a page goes over: from its start on, as long as they have the
required prefix. -/
def visited (entries : List (Bytes × Bytes)) (start required : Bytes) : List (Bytes × Bytes) :=
  (since Prod.fst entries start).takeWhile fun entry => required <+: entry.1

theorem lhscanLoop_takeWhile (matchloc : Bytes) (keyPrefixSize : Nat) (requiredPrefix : Bytes)
    (limit : Nat) (rows : List (Bytes × Bytes)) (results : List Bytes) :
    lhscanLoop stringmatchlen matchloc keyPrefixSize requiredPrefix limit rows results =
      lhscanLoop stringmatchlen matchloc keyPrefixSize requiredPrefix limit
        (rows.takeWhile fun row => requiredPrefix <+: row.1) results := by
  induction rows generalizing results with
  | nil => rfl
  | cons row rows ih =>
    by_cases hp : requiredPrefix <+: row.1
    · rw [List.takeWhile_cons_of_pos (by simpa using hp)]
      unfold lhscanLoop
      simp only [hp, not_true_eq_false, if_false, ih]
    · rw [List.takeWhile_cons_of_neg (by simpa using hp)]
      unfold lhscanLoop
      simp [hp]

theorem takeWhile_seek_visited (db : Database) (key start required : Bytes) :
    (db.seek (localityPrefix .kData key ++ start)).takeWhile
        (fun row => localityPrefix .kData key ++ required <+: row.1) =
      (visited (entriesOf db key) start required).map
        fun row => (localityPrefix .kData key ++ row.1, row.2) := by
  have hboth : (db.seek (localityPrefix .kData key ++ start)).takeWhile
        (fun row => localityPrefix .kData key ++ required <+: row.1) =
      ((db.seek (localityPrefix .kData key ++ start)).takeWhile
        fun row => localityPrefix .kData key <+: row.1).takeWhile
          fun row => localityPrefix .kData key ++ required <+: row.1 := by
    rw [List.takeWhile_takeWhile]
    congr 1
    funext row
    simp only [decide_eq_true_eq, decide_eq_decide, iff_self_and]
    exact (List.prefix_append _ _).trans
  rw [hboth, takeWhile_seek, List.takeWhile_map, visited, entriesOf]
  congr 2
  funext row
  simp [List.prefix_append_right_inj]

/-- The entry on which a page gets full, where it leaves entries: it matches, and there was
room before it. -/
def FullWith (stringmatchlen : Bytes → Bytes → Bool) (matchloc : Bytes) (limit : Nat)
    (results : List Bytes) (seen : List (Bytes × Bytes)) : Prop :=
  seen = [] ∧ limit ≤ results.length ∨
  ∃ before last, seen = before ++ [last] ∧ EntryMatches stringmatchlen matchloc last ∧
    (results ++ before.flatMap (emitEntry stringmatchlen matchloc)).length < limit ∧
    limit ≤ (results ++ seen.flatMap (emitEntry stringmatchlen matchloc)).length

/-- Before each entry that a page went over there was room. -/
def HadRoom (stringmatchlen : Bytes → Bytes → Bool) (matchloc : Bytes) (limit : Nat)
    (results : List Bytes) (seen : List (Bytes × Bytes)) : Prop :=
  ∀ before entry after, seen = before ++ entry :: after →
    (results ++ before.flatMap (emitEntry stringmatchlen matchloc)).length < limit

theorem lhscanLoop_page (hglob : GlobMatching stringmatchlen) (matchloc keyPrefix required : Bytes)
    (limit : Nat) (entries : List (Bytes × Bytes)) (hr : ∀ entry ∈ entries, Readable entry.1)
    (hp : ∀ entry ∈ entries, required <+: entry.1) (results : List Bytes) :
    ∃ seen rest, entries = seen ++ rest ∧
      lhscanLoop stringmatchlen matchloc keyPrefix.length (keyPrefix ++ required) limit
          (entries.map fun row => (keyPrefix ++ row.1, row.2)) results =
        .ok (cursorOf Prod.fst rest,
          results ++ seen.flatMap (emitEntry stringmatchlen matchloc)) ∧
      (rest ≠ [] → FullWith stringmatchlen matchloc limit results seen) ∧
      HadRoom stringmatchlen matchloc limit results seen := by
  induction entries generalizing results with
  | nil =>
    exact ⟨[], [], rfl, by simp [lhscanLoop, cursorOf, bot_eq], fun h => absurd rfl h,
      fun before entry after h => by simp at h⟩
  | cons entry entries ih =>
    obtain ⟨e, he, hreads⟩ := (hr entry (by simp)).parsed
    have hpre : keyPrefix ++ required <+: keyPrefix ++ entry.1 :=
      (List.prefix_append_right_inj keyPrefix).mpr (hp entry (by simp))
    by_cases hl : limit ≤ results.length
    · refine ⟨[], entry :: entries, rfl, ?_, fun _ => .inl ⟨rfl, hl⟩,
        fun before entry after h => by simp at h⟩
      simp [lhscanLoop, hpre, he, hreads.parsed, hl, qdbAssert, cursorOf, bind, Except.bind, pure,
        Except.pure]
    · obtain ⟨seen, rest, hn, hloop, hfull, hroom⟩ :=
        ih (fun x hx => hr x (by simp [hx])) (fun x hx => hp x (by simp [hx]))
          (results ++ emitEntry stringmatchlen matchloc entry)
      rw [List.append_assoc, ← List.flatMap_cons] at hloop
      refine ⟨entry :: seen, rest, by rw [hn, List.cons_append], ?_, fun h => ?_,
        fun before entry' after h => ?_⟩
      · rw [← hloop]
        rw [List.map_cons, lhscanLoop.eq_def]
        simp only [hpre, not_true_eq_false, if_false, List.drop_left, he, hreads.parsed,
          hreads.original, hreads.suffix, qdbAssert, hl, hglob.matches_iff, emitEntry, EntryMatches,
          bind, Except.bind, pure, Except.pure, if_true]
        by_cases hm : Matches stringmatchlen matchloc (hintOf entry.1) <;> simp [hm]
      · rcases hfull h with ⟨rfl, hlimit⟩ | ⟨before, last, rfl, hm, hroom, hlimit⟩
        · have hm : EntryMatches stringmatchlen matchloc entry := by
            by_contra hm
            simp [emitEntry, hm] at hlimit
            omega
          exact .inr ⟨[], entry, rfl, hm, by simpa using hl, by simpa using hlimit⟩
        · refine .inr ⟨entry :: before, last, rfl, hm, ?_, ?_⟩
          · rwa [List.append_assoc, ← List.flatMap_cons] at hroom
          · rwa [List.append_assoc, ← List.flatMap_cons] at hlimit
      · cases before with
        | nil => simpa using hl
        | cons first before =>
          obtain ⟨rfl, htail⟩ := List.cons.inj h
          have hlen := hroom before entry' after htail
          rwa [List.append_assoc, ← List.flatMap_cons] at hlen

/-- Where a page begins, within the entries of the hash. -/
def startOf (matchloc cursor : Bytes) : Bytes :=
  if cursor ≠ [] then cursor
  else if extractPatternPrefix matchloc = [] then []
  else if (extractPatternPrefix matchloc).length ≠ matchloc.length then
    escapeHashes (extractPatternPrefix matchloc)
  else hintPrefix (extractPatternPrefix matchloc)

/-- What the entries of a page begin with: on later pages the hint of the cursor. -/
def requiredOf (matchloc cursor : Bytes) : Bytes :=
  if extractPatternPrefix matchloc = [] then []
  else if cursor ≠ [] then hintPrefix (hintOf cursor)
  else extractPatternPrefix matchloc

/-- Where a page can begin. -/
def IsStart (key cursor : Bytes) : Prop :=
  cursor = [] ∨
    Readable cursor ∧ ¬ LocalityFieldLocator.Frees key (hintOf cursor) (nameOf cursor)

theorem Readable.ne_nil {entry : Bytes} (h : Readable entry) : entry ≠ [] := by
  rw [h.written]
  simp [hintPrefix]

theorem lhscan_eq {db : Database} {key : Bytes} (h : LocalityHash db key) {cursor : Bytes}
    (hc : IsStart key cursor) (matchloc : Bytes) (count : Nat) :
    lhscan stringmatchlen db key cursor matchloc count =
      lhscanFrom stringmatchlen db matchloc count (localityPrefix .kData key).length
        (localityPrefix .kData key ++ requiredOf matchloc cursor)
        (localityPrefix .kData key ++ startOf matchloc cursor) := by
  unfold lhscan
  rw [h.type, LocalityFieldLocator.resetKey_eq h.key_ne]
  have hview : ∀ hint, appendEscapedString (localityPrefix .kData key) hint =
      localityPrefix .kData key ++ hintPrefix hint := fun hint => rfl
  rcases hc with rfl | ⟨hread, hfrees⟩
  · by_cases hp : extractPatternPrefix matchloc = []
    · simp [startOf, requiredOf, hp, LocalityFieldLocator.toView, Except.bind, bind]
    · have hdrop : ∀ p : Bytes, (localityPrefix .kData key ++ hintPrefix p).dropLast.dropLast =
          localityPrefix .kData key ++ escapeHashes p := by
        intro p
        rw [hintPrefix, ← List.append_assoc]
        simp
      simp only [startOf, requiredOf, hp, LocalityFieldLocator.toView,
        LocalityFieldLocator.resetHint_eq key hp, hview, hdrop, Except.bind, bind, Bool.not_true,
        Bool.false_eq_true, if_false, if_true, ne_eq, not_true_eq_false, not_false_eq_true]
      split_ifs <;> rfl
  · obtain ⟨e, he, hr⟩ := hread.parsed
    obtain ⟨block, hl⟩ := LocalityFieldLocator.ofField_eq h.key_ne hread.hint_ne hfrees
    simp only [startOf, requiredOf, hread.ne_nil, LocalityFieldLocator.toView, he, hr.parsed,
      hr.original, hr.suffix, LocalityFieldLocator.resetHint_eq key hread.hint_ne,
      LocalityFieldLocator.resetField_eq h.key_ne hread.hint_ne, hl, Except.bind, bind,
      Bool.not_true, Bool.false_eq_true, if_false, if_true, ne_eq, not_false_eq_true, ite_not]
    rw [hview, List.append_assoc, ← hread.written]
    split_ifs <;> simp

/-- From such a cursor on there is no page. -/
theorem lhscan_stranded {db : Database} {key : Bytes} (h : LocalityHash db key) {cursor : Bytes}
    (hread : Readable cursor)
    (hfrees : LocalityFieldLocator.Frees key (hintOf cursor) (nameOf cursor)) (matchloc : Bytes)
    (count : Nat) :
    lhscan stringmatchlen db key cursor matchloc count = .error .outOfBounds := by
  obtain ⟨e, he, hr⟩ := hread.parsed
  unfold lhscan
  rw [h.type, LocalityFieldLocator.resetKey_eq h.key_ne]
  simp only [hread.ne_nil, he, hr.parsed, hr.original, hr.suffix,
    LocalityFieldLocator.resetHint_eq key hread.hint_ne,
    LocalityFieldLocator.resetField_eq h.key_ne hread.hint_ne,
    LocalityFieldLocator.ofField_frees h.key_ne hread.hint_ne hfrees, Except.bind, bind,
    Bool.not_true, Bool.false_eq_true, if_false, ne_eq, not_false_eq_true, if_true]

/-- One page: what it goes over, where it stops and what it answers. -/
theorem lhscan_page (hglob : GlobMatching stringmatchlen) {db : Database} {key : Bytes}
    (h : LocalityHash db key) {cursor : Bytes} (hc : IsStart key cursor)
    (matchloc : Bytes) (count : Nat) :
    ∃ seen rest,
      visited (entriesOf db key) (startOf matchloc cursor) (requiredOf matchloc cursor) =
        seen ++ rest ∧
      lhscan stringmatchlen db key cursor matchloc count =
        .ok (.OK, cursorOf Prod.fst rest, seen.flatMap (emitEntry stringmatchlen matchloc)) ∧
      (rest ≠ [] → FullWith stringmatchlen matchloc (count * 3 % 2 ^ 64) [] seen) ∧
      HadRoom stringmatchlen matchloc (count * 3 % 2 ^ 64) [] seen := by
  have hsub : ∀ entry ∈ visited (entriesOf db key) (startOf matchloc cursor)
      (requiredOf matchloc cursor), Readable entry.1 := fun entry he =>
    h.readable entry ((since_suffix Prod.fst _ _).subset ((List.takeWhile_prefix _).subset he))
  obtain ⟨seen, rest, hn, hloop, hfull, hroom⟩ := lhscanLoop_page hglob matchloc
    (localityPrefix .kData key) (requiredOf matchloc cursor) (count * 3 % 2 ^ 64) _ hsub
    (fun entry he => by simpa using List.mem_takeWhile_imp he) []
  refine ⟨seen, rest, hn, ?_, hfull, hroom⟩
  rw [lhscan_eq h hc, lhscanFrom, lhscanLoop_takeWhile, takeWhile_seek_visited, hloop]
  rfl

/-! ## Which entries the pages reach -/

/-- A call that succeeds: its results and the next cursor. -/
def LhscanPage (stringmatchlen : Bytes → Bytes → Bool) (db : Database) (key matchloc cursor : Bytes)
    (count : Nat) (out : List Bytes) (next : Bytes) : Prop :=
  lhscan stringmatchlen db key cursor matchloc count = .ok (.OK, next, out)

/-- A call has one answer. -/
theorem LhscanPage.unique {db : Database} {key matchloc cursor : Bytes} {count : Nat}
    {out out' : List Bytes} {next next' : Bytes}
    (h : LhscanPage stringmatchlen db key matchloc cursor count out next)
    (h' : LhscanPage stringmatchlen db key matchloc cursor count out' next') :
    out = out' ∧ next = next' := by
  rw [LhscanPage] at h h'
  rw [h] at h'
  simp only [Except.ok.injEq, Prod.mk.injEq, true_and] at h'
  exact ⟨h'.2, h'.1⟩

/-- Nothing that matches has lost the end of its hint. -/
def HintsKept (stringmatchlen : Bytes → Bytes → Bool) (db : Database) (key matchloc : Bytes) :
    Prop :=
  ∀ hint name value, EndIsLost hint name → IsStored db key hint name value →
    ¬ Matches stringmatchlen matchloc hint

/-- A name that ends in '|', before an empty field: the extractor reads past the end. -/
theorem parse_end_bar_nil (stem : Bytes) :
    EscapedPrefixExtractor.parse (hintPrefix (stem ++ [bar])) = .error .outOfBounds := by
  have hne : stem ++ [bar] ≠ [] := by simp
  have h := EscapedPrefixExtractor.parse_escaped hne []
  have hview : escapeHashes (stem ++ [bar]) ++ [hash, hash] = hintPrefix (stem ++ [bar]) := rfl
  obtain ⟨prev, hstem⟩ := extractPrefixLoop_stem stem bar_ne_hash [hash, hash] 0 none []
  have hx : extractPrefix (escapeHashes (stem ++ [bar]) ++ [hash, hash]) = .error .outOfBounds := by
    rw [extractPrefix, escapeHashes_append, List.append_assoc, escapeHashes_of_ne bar_ne_hash,
      escapeHashes_nil, List.cons_append, List.nil_append, hstem, extractPrefixLoop_end_bar_nil]
  rw [if_pos (.inr (by simp)), EscapedPrefixExtractor.parseHeavy, hx, hview] at h
  exact h

/-- An entry under the prefix of a hint has that hint, unless the end of the hint is lost
and the entry reads as one of the hint that ends in '#' instead. -/
theorem Readable.hint_cases {entry hint : Bytes} (hr : Readable entry) (hh : hint ≠ [])
    (hp : hintPrefix hint <+: entry) :
    hintOf entry = hint ∨ ∃ stem name, hint = stem ++ [bar] ∧ hintOf entry = stem ++ [hash] ∧
      entry = hintPrefix hint ++ name ∧ EndIsLost hint name := by
  obtain ⟨name, rfl⟩ := hp
  by_cases hl : EndIsLost hint name
  · have hn : name ≠ [] := by
      rintro rfl
      obtain ⟨stem, rfl⟩ := List.getLast?_eq_some_iff.mp hl.1
      obtain ⟨e, he, -⟩ := hr.parsed
      rw [List.append_nil, parse_end_bar_nil] at he
      cases he
    obtain ⟨stem, rest, hstem, -, hw⟩ := hintPrefix_lost hn hl
    refine .inr ⟨stem, name, hstem, ?_, rfl, hl⟩
    rw [hw]
    refine (readable_of_kept (by simp) ?_).2.1
    rintro ⟨hb, -⟩
    simp [bar_ne_hash.symm] at hb
  · exact .inl (readable_of_kept hh hl).2.1

/-- The prefix of a hint that ends in '#' begins with that of the hint that ends in '|'. -/
theorem hintPrefix_bar_prefix (stem : Bytes) :
    hintPrefix (stem ++ [bar]) <+: hintPrefix (stem ++ [hash]) := by
  refine ⟨[hash], ?_⟩
  simp [hintPrefix, escapeHashes_append, bar_ne_hash]

theorem Readable.hintPrefix_prefix {entry hint : Bytes} (hr : Readable entry) (hh : hint ≠ [])
    (hp : hintPrefix hint <+: entry) : hintPrefix hint <+: hintPrefix (hintOf entry) := by
  rcases hr.hint_cases hh hp with he | ⟨stem, name, rfl, he, -⟩
  · rw [he]
  · rw [he]
    exact hintPrefix_bar_prefix stem

theorem limit_pos {count : Nat} (h : IsCount count) : 1 ≤ count * 3 % 2 ^ 64 := by
  obtain ⟨h1, h2⟩ := h
  by_cases hlt : count * 3 < 2 ^ 64
  · rw [Nat.mod_eq_of_lt hlt]
    omega
  · -- The product goes round once, and 2^64 is no multiple of 3.
    rw [Nat.mod_eq_sub_mod (by omega), Nat.mod_eq_of_lt (by omega)]
    omega

/-- A page that leaves entries has gone over one. -/
theorem FullWith.seen_ne {matchloc : Bytes} {limit : Nat} {seen : List (Bytes × Bytes)}
    (h : FullWith stringmatchlen matchloc limit [] seen) (hl : 1 ≤ limit) : seen ≠ [] := by
  rcases h with ⟨-, hle⟩ | ⟨before, last, rfl, -⟩
  · simp only [List.length_nil] at hle
    omega
  · simp

theorem mem_visited_iff {entries : List (Bytes × Bytes)} (hs : Sorted Prod.fst entries)
    {required name : Bytes} {e : Bytes × Bytes} :
    e ∈ visited entries (required ++ name) required ↔
      e ∈ since Prod.fst entries (required ++ name) ∧ required <+: e.1 := by
  rw [visited, takeWhile_since hs, mem_since_iff Prod.fst (hs.filter _), mem_since_iff Prod.fst hs,
    List.mem_filter, decide_eq_true_eq, and_assoc, and_assoc, and_congr_right_iff]
  exact fun _ => and_comm

/-- The number of triples that fill a page. -/
def fullPage (count : Nat) : Nat := (count * 3 % 2 ^ 64 + 2) / 3

/-- A page that leaves entries has on it as many that match as fill it. -/
theorem FullWith.split {matchloc : Bytes} {count : Nat} {seen : List (Bytes × Bytes)}
    (hcount : IsCount count)
    (h : FullWith stringmatchlen matchloc (count * 3 % 2 ^ 64) [] seen) :
    ∃ before last, seen = before ++ [last] ∧ EntryMatches stringmatchlen matchloc last ∧
      (before.countP fun e => EntryMatches stringmatchlen matchloc e) + 1 = fullPage count := by
  have hpos := limit_pos hcount
  unfold fullPage
  generalize count * 3 % 2 ^ 64 = limit at h hpos ⊢
  rcases h with ⟨-, hle⟩ | ⟨before, last, rfl, hm, hroom, hle⟩
  · simp only [List.length_nil] at hle
    omega
  · refine ⟨before, last, rfl, hm, ?_⟩
    have hlast : (before ++ [last]).countP (fun e => EntryMatches stringmatchlen matchloc e) =
        before.countP (fun e => EntryMatches stringmatchlen matchloc e) + 1 := by
      simp [hm]
    rw [List.nil_append, length_emitEntry] at hroom hle
    rw [hlast] at hle
    omega

/-- No page has more that match. -/
theorem HadRoom.countP_le {matchloc : Bytes} {count : Nat} {seen : List (Bytes × Bytes)}
    (h : HadRoom stringmatchlen matchloc (count * 3 % 2 ^ 64) [] seen) :
    (seen.countP fun e => EntryMatches stringmatchlen matchloc e) ≤ fullPage count := by
  rcases List.eq_nil_or_concat seen with rfl | ⟨before, last, rfl⟩
  · exact Nat.zero_le _
  · have hroom := h before last [] (by simp)
    have hlast : ([last].countP fun e => EntryMatches stringmatchlen matchloc e) ≤ 1 :=
      List.countP_le_length
    rw [List.nil_append, length_emitEntry] at hroom
    rw [List.concat_eq_append, List.countP_append, fullPage]
    omega

/-- A page from a cursor on has found its locator. -/
theorem LhscanPage.not_stranded {db : Database} {key matchloc : Bytes} (h : LocalityHash db key)
    {entry : Bytes × Bytes} (he : entry ∈ entriesOf db key) {count : Nat} {out : List Bytes}
    {next : Bytes} (hp : LhscanPage stringmatchlen db key matchloc entry.1 count out next) :
    ¬ Stranded key entry := by
  intro hfrees
  rw [LhscanPage, lhscan_stranded h (h.readable entry he) hfrees] at hp
  cases hp

theorem LhscanPage.isStart {db : Database} {key matchloc : Bytes} (h : LocalityHash db key)
    {entry : Bytes × Bytes} (he : entry ∈ entriesOf db key) {count : Nat} {out : List Bytes}
    {next : Bytes} (hp : LhscanPage stringmatchlen db key matchloc entry.1 count out next) :
    IsStart key entry.1 :=
  .inr ⟨h.readable entry he, hp.not_stranded h he⟩

/-- An entry under the prefix of a hint that matches has that hint. -/
theorem HintsKept.hint_cases {db : Database} {key matchloc : Bytes}
    (hkept : HintsKept stringmatchlen db key matchloc) (h : LocalityHash db key) {hint : Bytes}
    (hh : hint ≠ []) {e : Bytes × Bytes} (he : e ∈ entriesOf db key)
    (hp : hintPrefix hint <+: e.1) :
    hintOf e.1 = hint ∨ ∃ stem, hint = stem ++ [bar] ∧ hintOf e.1 = stem ++ [hash] ∧
      ¬ Matches stringmatchlen matchloc hint := by
  rcases (h.readable e he).hint_cases hh hp with heq | ⟨stem, name, hbar, heq, hw, hl⟩
  · exact .inl heq
  · refine .inr ⟨stem, hbar, heq, hkept _ name e.2 hl (isStored_iff.mpr ⟨hh, ?_⟩)⟩
    rw [← hw]
    exact he

/-- What matches under the hint of a cursor stands under the hint of any other entry there: both
have that hint, or it does not match and both have the one that ends in '#' instead. -/
theorem HintsKept.prefix_of_matches {db : Database} {key matchloc : Bytes}
    (hkept : HintsKept stringmatchlen db key matchloc) (h : LocalityHash db key) {hint : Bytes}
    (hh : hint ≠ []) {next e : Bytes × Bytes} (hn : next ∈ entriesOf db key)
    (he : e ∈ entriesOf db key) (hm : EntryMatches stringmatchlen matchloc e)
    (hpn : hintPrefix hint <+: next.1) (hpe : hintPrefix hint <+: e.1) :
    hintPrefix (hintOf next.1) <+: e.1 := by
  rcases hkept.hint_cases h hh hn hpn with heq | ⟨stem, hbar, heq, hnot⟩
  · rw [heq]
    exact hpe
  rcases hkept.hint_cases h hh he hpe with heqe | ⟨stem', hbar', heqe, -⟩
  · rw [EntryMatches, heqe] at hm
    exact absurd hm hnot
  · rw [hbar] at hbar'
    rw [heq, (h.readable e he).written, heqe, List.append_cancel_right hbar']
    exact List.prefix_append _ _

/-- Behind a cursor and the entry that fills the page, no entry of the hint of the cursor is
stranded: it would stand first under its own hint, and the entry that fills the page, which
matches, stands under it too. -/
theorem not_stranded_behind {db : Database} {key : Bytes} (h : LocalityHash db key)
    {matchloc : Bytes} (hkept : HintsKept stringmatchlen db key matchloc)
    {entry last next : Bytes × Bytes} (he : entry ∈ entriesOf db key)
    (hl : last ∈ entriesOf db key) (hn : next ∈ entriesOf db key)
    (hln : last.1 < next.1) (hm : EntryMatches stringmatchlen matchloc last)
    (hpl : hintPrefix (hintOf entry.1) <+: last.1) (hpn : hintPrefix (hintOf entry.1) <+: next.1) :
    ¬ Stranded key next := by
  rintro ⟨-, hname⟩
  have hw := (h.readable next hn).written
  rw [hname, List.append_nil] at hw
  obtain ⟨rest, hrest⟩ :=
    hkept.prefix_of_matches h (h.readable entry he).hint_ne hn hl hm hpn hpl
  rw [hw, ← hrest] at hln
  exact not_lt.mpr (le_append _ rest) hln

/-- From a cursor on, the pages of a pattern with a literal prefix reach entries under the
hint of the cursor only; of these, all that match. -/
theorem later_pages (hglob : GlobMatching stringmatchlen) {db : Database} {key : Bytes}
    (h : LocalityHash db key) {matchloc : Bytes} (hp : extractPatternPrefix matchloc ≠ [])
    {count : Nat} (hcount : IsCount count) (hkept : HintsKept stringmatchlen db key matchloc)
    {entry : Bytes × Bytes} (he : entry ∈ entriesOf db key) (hstr : ¬ Stranded key entry) :
    ∃ (n : Nat) (reached : List (Bytes × Bytes)),
      Traversal (LhscanPage stringmatchlen db key matchloc) entry.1
        (List.replicate (n + 1) count) (reached.flatMap (emitEntry stringmatchlen matchloc)) ∧
      reached.Sublist (since Prod.fst (entriesOf db key) entry.1) ∧
      (∀ e ∈ reached, hintPrefix (hintOf entry.1) <+: e.1) ∧
      ∀ e ∈ since Prod.fst (entriesOf db key) entry.1, EntryMatches stringmatchlen matchloc e →
        hintPrefix (hintOf entry.1) <+: e.1 → e ∈ reached := by
  have hs : Sorted Prod.fst (entriesOf db key) := db.sorted_under _
  generalize hlen : (since Prod.fst (entriesOf db key) entry.1).length = len
  induction len using Nat.strongRecOn generalizing entry with
  | ind len ih =>
    have hread := h.readable entry he
    obtain ⟨seen, rest, hn, hcall, hfull, -⟩ :=
      lhscan_page hglob h (.inr ⟨hread, hstr⟩) matchloc count
    have hstart : startOf matchloc entry.1 = entry.1 := by simp [startOf, hread.ne_nil]
    have hreq : requiredOf matchloc entry.1 = hintPrefix (hintOf entry.1) := by
      simp [requiredOf, hread.ne_nil, hp]
    rw [hstart, hreq] at hn
    have hmem : ∀ e, e ∈ seen ++ rest ↔ e ∈ since Prod.fst (entriesOf db key) entry.1 ∧
        hintPrefix (hintOf entry.1) <+: e.1 := by
      intro e
      have hv := @mem_visited_iff _ hs (hintPrefix (hintOf entry.1)) (nameOf entry.1) e
      rw [← hread.written, hn] at hv
      exact hv
    obtain ⟨tail, htail⟩ : seen ++ rest <+: since Prod.fst (entriesOf db key) entry.1 := by
      rw [← hn]
      exact List.takeWhile_prefix _
    cases rest with
    | nil =>
      rw [List.append_nil] at hmem htail
      refine ⟨0, seen, .last hcall, ?_, fun e hm => ((hmem e).mp hm).2, fun e hm _ hpre =>
        (hmem e).mpr ⟨hm, hpre⟩⟩
      rw [← htail]
      exact List.sublist_append_left _ _
    | cons next rest =>
      obtain ⟨hnext, hpre⟩ := (hmem next).mp (by simp)
      have hnextE : next ∈ entriesOf db key := ((mem_since_iff Prod.fst hs).mp hnext).1
      have hreadn := h.readable next hnextE
      obtain ⟨before, hbefore⟩ := since_suffix Prod.fst (entriesOf db key) entry.1
      have hall : entriesOf db key = (before ++ seen) ++ next :: (rest ++ tail) := by
        rw [← hbefore, ← htail]
        simp
      have hfrom : since Prod.fst (entriesOf db key) next.1 = next :: (rest ++ tail) := by
        rw [hall] at hs ⊢
        exact since_name Prod.fst hs
      have hsplit : since Prod.fst (entriesOf db key) entry.1 =
          seen ++ since Prod.fst (entriesOf db key) next.1 := by
        rw [hfrom, ← htail]
        simp
      have hfull' := hfull (by simp)
      have hstrn : ¬ Stranded key next := by
        obtain ⟨b, last, rfl, hml, -⟩ := hfull'.split hcount
        obtain ⟨hl, hpl⟩ := (hmem last).mp (by simp)
        have hlE := ((mem_since_iff Prod.fst hs).mp hl).1
        refine not_stranded_behind h hkept he hlE hnextE ?_ hml hpl hpre
        rw [hall] at hs
        exact (List.pairwise_append.mp hs).2.2 last (by simp) next (by simp)
      have hshort : (since Prod.fst (entriesOf db key) next.1).length < len := by
        have hpos := List.length_pos_of_ne_nil (hfull'.seen_ne (limit_pos hcount))
        rw [← hlen, hsplit, List.length_append]
        omega
      obtain ⟨n, reached, ht, hsub, hunder, hreach⟩ := ih _ hshort hnextE hstrn rfl
      have hdeep : hintPrefix (hintOf entry.1) <+: hintPrefix (hintOf next.1) :=
        hreadn.hintPrefix_prefix hread.hint_ne hpre
      refine ⟨n + 1, seen ++ reached, ?_, ?_, ?_, ?_⟩
      · rw [List.replicate_succ, List.flatMap_append]
        exact .more hcall hreadn.ne_nil ht
      · rw [hsplit]
        exact (List.Sublist.refl seen).append hsub
      · intro e hm
        rcases List.mem_append.mp hm with hm | hm
        · exact ((hmem e).mp (List.mem_append_left _ hm)).2
        · exact hdeep.trans (hunder e hm)
      · intro e hm hmatch hpree
        rcases List.mem_append.mp ((hmem e).mpr ⟨hm, hpree⟩) with hin | hin
        · exact List.mem_append_left _ hin
        have hlater : e ∈ since Prod.fst (entriesOf db key) next.1 := by
          rw [hfrom, ← List.cons_append]
          exact List.mem_append_left _ hin
        exact List.mem_append_right _ (hreach e hlater hmatch (hkept.prefix_of_matches h
          hread.hint_ne hnextE ((mem_since_iff Prod.fst hs).mp hm).1 hmatch hpre hpree))

/-- The pages reach every entry that matches: nothing matches; or the pattern has no literal
prefix; or this has no '#', and all that matches after the first page stands under the hint
of the entry that comes right after it. -/
def ReachesAll (stringmatchlen : Bytes → Bytes → Bool) (matchloc : Bytes) (count : Nat)
    (entries : List (Bytes × Bytes)) : Prop :=
  (∀ entry ∈ entries, ¬ EntryMatches stringmatchlen matchloc entry) ∨
  extractPatternPrefix matchloc = [] ∨
  hash ∉ extractPatternPrefix matchloc ∧
    ∀ before last next rest, entries = before ++ last :: next :: rest →
      EntryMatches stringmatchlen matchloc last →
      (before.countP fun e => EntryMatches stringmatchlen matchloc e) + 1 = fullPage count →
      ∀ entry ∈ next :: rest, EntryMatches stringmatchlen matchloc entry →
        hintPrefix (hintOf next.1) <+: entry.1

/-- Two places with an element that counts, and as many before it, are the same. -/
theorem split_unique {α : Type} {p : α → Bool} {a a' b b' : List α} {x x' : α}
    (h : a ++ x :: b = a' ++ x' :: b') (hx : p x = true) (hx' : p x' = true)
    (hc : a.countP p = a'.countP p) : a = a' ∧ x = x' ∧ b = b' := by
  induction a generalizing a' with
  | nil =>
    cases a' with
    | nil => simpa using h
    | cons y a' =>
      obtain ⟨rfl, -⟩ := List.cons.inj h
      rw [List.countP_nil, List.countP_cons_of_pos hx] at hc
      omega
  | cons y a ih =>
    cases a' with
    | nil =>
      obtain ⟨rfl, -⟩ := List.cons.inj h
      rw [List.countP_nil, List.countP_cons_of_pos hx'] at hc
      omega
    | cons y' a' =>
      obtain ⟨rfl, htail⟩ := List.cons.inj h
      rw [List.countP_cons, List.countP_cons] at hc
      obtain ⟨rfl, hrest⟩ := ih htail (by omega)
      exact ⟨rfl, hrest⟩

/-- A literal prefix with a '#' comes before itself when it is escaped. -/
theorem lt_escapeHashes {p s : Bytes} (hp : hash ∈ p) (hs : p <+: s) (t : Bytes) :
    s < escapeHashes p ++ t := by
  induction p generalizing s with
  | nil => cases hp
  | cons c p ih =>
    obtain ⟨rest, rfl⟩ := hs
    by_cases hc : c = hash
    · subst hc
      rw [escapeHashes_hash, List.cons_append, List.cons_append, List.cons_lt_cons_iff]
      exact .inl (by decide)
    · have hp' : hash ∈ p := by
        rcases List.mem_cons.mp hp with he | hm
        · exact absurd he.symm hc
        · exact hm
      rw [escapeHashes_of_ne hc, List.cons_append, List.cons_append, List.cons_lt_cons_iff]
      exact .inr ⟨rfl, ih hp' (List.prefix_append _ _)⟩

/-- The entry is the cursor of a page: it stands right after an entry that fills one. With a
literal prefix only the first page counts, which goes over what begins with the prefix. -/
def IsPageCursor (stringmatchlen : Bytes → Bytes → Bool) (matchloc : Bytes) (count : Nat)
    (entries : List (Bytes × Bytes)) (next : Bytes × Bytes) : Prop :=
  ∃ before last rest, entries = before ++ last :: next :: rest ∧
    EntryMatches stringmatchlen matchloc last ∧
    (extractPatternPrefix matchloc = [] ∧
        fullPage count ∣ (before.countP fun e => EntryMatches stringmatchlen matchloc e) + 1 ∨
      hash ∉ extractPatternPrefix matchloc ∧ extractPatternPrefix matchloc <+: next.1 ∧
        (before.countP fun e => EntryMatches stringmatchlen matchloc e) + 1 = fullPage count)

/-- From each of the cursors a page can go on. -/
def CursorsHold (stringmatchlen : Bytes → Bytes → Bool) (key matchloc : Bytes) (count : Nat)
    (entries : List (Bytes × Bytes)) : Prop :=
  ∀ next, IsPageCursor stringmatchlen matchloc count entries next → ¬ Stranded key next

/-- A page and what is left, where the entries go on behind one that fills a page: this is the
last of the page, or it is left. -/
theorem page_split {matchloc : Bytes} {count : Nat} {seen rest before after : List (Bytes × Bytes)}
    {last next : Bytes × Bytes} (heq : seen ++ rest = before ++ last :: next :: after)
    (hroom : HadRoom stringmatchlen matchloc (count * 3 % 2 ^ 64) [] seen)
    (hm : EntryMatches stringmatchlen matchloc last)
    (hle : fullPage count ≤ (before.countP fun e => EntryMatches stringmatchlen matchloc e) + 1) :
    seen = before ++ [last] ∧ rest = next :: after ∨
      ∃ more, before = seen ++ more ∧ rest = more ++ last :: next :: after := by
  rcases List.append_eq_append_iff.mp heq with ⟨more, hb, hr⟩ | ⟨tail, hseen, htail⟩
  · exact .inr ⟨more, hb, hr⟩
  cases tail with
  | nil => exact .inr ⟨[], by simpa using hseen.symm, htail.symm⟩
  | cons x tail =>
    obtain ⟨rfl, hafter⟩ := List.cons.inj htail
    cases tail with
    | nil => exact .inl ⟨hseen, hafter.symm⟩
    | cons y tail =>
      -- the page would have stopped before `y`
      exfalso
      have hlt := hroom (before ++ [last]) y tail (by rw [hseen]; simp)
      rw [List.nil_append, length_emitEntry, List.countP_append,
        List.countP_singleton, if_pos (by simpa using hm)] at hlt
      unfold fullPage at hle
      omega

section Everything

variable {db : Database} {key matchloc : Bytes} {count : Nat}

/-- Without a literal prefix a page goes over all that is left. -/
theorem visited_everything (hp : extractPatternPrefix matchloc = []) (cursor : Bytes) :
    visited (entriesOf db key) (startOf matchloc cursor) (requiredOf matchloc cursor) =
      since Prod.fst (entriesOf db key) cursor := by
  have hstart : startOf matchloc cursor = cursor := by
    by_cases hc : cursor = [] <;> simp [startOf, hp, hc]
  rw [hstart, requiredOf, if_pos hp, visited, List.takeWhile_eq_self_iff]
  simp

theorem since_next {before seen rest : List (Bytes × Bytes)} {next : Bytes × Bytes}
    (hE : entriesOf db key = before ++ (seen ++ next :: rest)) :
    since Prod.fst (entriesOf db key) next.1 = next :: rest := by
  have hs : Sorted Prod.fst (entriesOf db key) := db.sorted_under _
  rw [← List.append_assoc] at hE
  rw [hE] at hs ⊢
  exact since_name Prod.fst hs

/-- Without a literal prefix the pages reach everything, if they can go on. -/
theorem all_pages (hglob : GlobMatching stringmatchlen) (h : LocalityHash db key)
    (hp : extractPatternPrefix matchloc = []) (hcount : IsCount count)
    (hold : CursorsHold stringmatchlen key matchloc count (entriesOf db key))
    {before rows : List (Bytes × Bytes)} {cursor : Bytes}
    (hE : entriesOf db key = before ++ rows)
    (hrows : since Prod.fst (entriesOf db key) cursor = rows) (hc : IsStart key cursor)
    (hdvd : fullPage count ∣ before.countP fun e => EntryMatches stringmatchlen matchloc e) :
    ∃ n : Nat, Traversal (LhscanPage stringmatchlen db key matchloc) cursor
      (List.replicate (n + 1) count) (rows.flatMap (emitEntry stringmatchlen matchloc)) := by
  generalize hlen : rows.length = len
  induction len using Nat.strongRecOn generalizing before rows cursor with
  | ind len ih =>
    obtain ⟨seen, rest, hn, hcall, hfull, -⟩ := lhscan_page hglob h hc matchloc count
    rw [visited_everything hp, hrows] at hn
    subst hn
    cases rest with
    | nil =>
      rw [List.append_nil]
      exact ⟨0, .last hcall⟩
    | cons next rest =>
      obtain ⟨b, last, rfl, hm, hfullb⟩ := (hfull (by simp)).split hcount
      have hread := h.readable next (by rw [hE]; simp)
      have hstr : ¬ Stranded key next := by
        refine hold next ⟨before ++ b, last, rest, by rw [hE]; simp, hm, .inl ⟨hp, ?_⟩⟩
        rw [List.countP_append, Nat.add_assoc, hfullb]
        exact Nat.dvd_add_self_right.mpr hdvd
      have hE' : entriesOf db key = (before ++ (b ++ [last])) ++ next :: rest := by
        rw [hE]
        simp
      have hdvd' : fullPage count ∣ (before ++ (b ++ [last])).countP
          fun e => EntryMatches stringmatchlen matchloc e := by
        rw [List.countP_append, List.countP_append, List.countP_singleton,
          if_pos (by simpa using hm), hfullb]
        exact Nat.dvd_add_self_right.mpr hdvd
      obtain ⟨n, ht⟩ := ih _ (by rw [← hlen]; simp; omega) hE' (since_next hE)
        (.inr ⟨hread, hstr⟩) hdvd' rfl
      refine ⟨n + 1, ?_⟩
      rw [List.replicate_succ, List.flatMap_append]
      exact .more hcall hread.ne_nil ht

/-- Pages that came to their end have gone on from all cursors. -/
theorem not_stranded_of_traversal (hglob : GlobMatching stringmatchlen) (h : LocalityHash db key)
    (hp : extractPatternPrefix matchloc = []) (hcount : IsCount count) {cursor : Bytes}
    {sizes : List Nat} {out : List Bytes} (hsizes : ∀ size ∈ sizes, size = count)
    (ht : Traversal (LhscanPage stringmatchlen db key matchloc) cursor sizes out)
    {before rows : List (Bytes × Bytes)} (hE : entriesOf db key = before ++ rows)
    (hrows : since Prod.fst (entriesOf db key) cursor = rows) (hc : IsStart key cursor)
    {b after : List (Bytes × Bytes)} {last next : Bytes × Bytes}
    (hsplit : rows = b ++ last :: next :: after) (hm : EntryMatches stringmatchlen matchloc last)
    (hdvd : fullPage count ∣ (b.countP fun e => EntryMatches stringmatchlen matchloc e) + 1) :
    ¬ Stranded key next := by
  have hle := Nat.le_of_dvd (Nat.succ_pos _) hdvd
  induction ht generalizing before rows b with
  | @last cursor size out hpage =>
    obtain rfl := hsizes _ (List.mem_singleton_self _)
    obtain ⟨seen, rest, hn, hcall, hfull, hroom⟩ := lhscan_page hglob h hc matchloc size
    rw [visited_everything hp, hrows, hsplit] at hn
    have hend := (hpage.unique hcall).2
    rcases page_split hn.symm hroom hm hle with ⟨-, rfl⟩ | ⟨more, -, rfl⟩
    · exact absurd hend.symm (h.readable next (by rw [hE, hsplit]; simp)).ne_nil
    · obtain ⟨x, tail, hx⟩ := List.exists_cons_of_ne_nil
        (show more ++ last :: next :: after ≠ [] by simp)
      rw [hx] at hend hn
      exact absurd hend.symm (h.readable x (by rw [hE, hsplit, hn]; simp)).ne_nil
  | @more cursor next' size sizes out rest' hpage hne ht ih =>
    obtain rfl := hsizes _ List.mem_cons_self
    obtain ⟨seen, rest, hn, hcall, hfull, hroom⟩ := lhscan_page hglob h hc matchloc size
    rw [visited_everything hp, hrows] at hn
    have hnext := (hpage.unique hcall).2
    rw [hsplit] at hn
    rcases page_split hn.symm hroom hm hle with ⟨rfl, rfl⟩ | ⟨more, rfl, rfl⟩
    · obtain ⟨size', -, out', next'', hcall'⟩ := ht.first
      rw [hnext] at hcall'
      exact LhscanPage.not_stranded h (by rw [hE, hsplit]; simp) hcall'
    · obtain ⟨x, tail, hx⟩ := List.exists_cons_of_ne_nil
        (show more ++ last :: next :: after ≠ [] by simp)
      rw [hx] at hnext
      obtain ⟨b', last', hseen, hm', hfullb⟩ := (hfull (by simp)).split hcount
      have hcountS : (seen.countP fun e => EntryMatches stringmatchlen matchloc e) =
          fullPage size := by
        rw [hseen, List.countP_append, List.countP_singleton, if_pos (by simpa using hm'), hfullb]
      have hE' : entriesOf db key = before ++ (seen ++ x :: tail) := by
        rw [hE, hsplit, ← hx, List.append_assoc]
      obtain ⟨size', -, out', next'', hcall'⟩ := ht.first
      rw [hnext] at hcall'
      have hstart := LhscanPage.isStart h (by rw [hE']; simp) hcall'
      rw [List.countP_append, hcountS, Nat.add_assoc] at hdvd
      have hdvd' := (Nat.dvd_add_right (Nat.dvd_refl _)).mp hdvd
      have hrest : entriesOf db key = (before ++ seen) ++ x :: tail := by
        rw [hE', List.append_assoc]
      refine ih (fun size' hs => hsizes size' (List.mem_cons_of_mem _ hs)) hrest ?_ ?_ hx.symm hdvd'
        (Nat.le_of_dvd (Nat.succ_pos _) hdvd')
      · rw [hnext]
        exact since_next hE'
      · rw [hnext]
        exact hstart

end Everything

theorem extractPatternPrefix_isPrefix (pattern : Bytes) : extractPatternPrefix pattern <+: pattern := by
  induction pattern with
  | nil => exact List.nil_prefix
  | cons c pattern ih =>
    unfold extractPatternPrefix
    split_ifs
    · exact List.nil_prefix
    · exact (List.prefix_cons_inj c).mpr ih

/-- With a literal prefix that has no '#', the first page goes over all that matches, as long
as it has room. -/
theorem mem_first_page (hglob : GlobMatching stringmatchlen) {db : Database} {key : Bytes}
    (h : LocalityHash db key) {matchloc : Bytes} (hp : extractPatternPrefix matchloc ≠ [])
    (hh : hash ∉ extractPatternPrefix matchloc) {e : Bytes × Bytes} (he : e ∈ entriesOf db key)
    (hm : EntryMatches stringmatchlen matchloc e) :
    e ∈ visited (entriesOf db key) (startOf matchloc []) (requiredOf matchloc []) := by
  have hs : Sorted Prod.fst (entriesOf db key) := db.sorted_under _
  have hread := h.readable e he
  have hpat : stringmatchlen matchloc (hintOf e.1) = true := by
    rcases hm with rfl | hm
    · exact absurd rfl hp
    · exact hm
  have hescape := escapeHashes_of_not_mem hh
  have hpre : extractPatternPrefix matchloc <+: e.1 := by
    obtain ⟨rest, hrest⟩ := hglob.prefix_of_match hpat
    rw [hread.written, hintPrefix, ← hrest, escapeHashes_append, hescape, List.append_assoc,
      List.append_assoc]
    exact List.prefix_append _ _
  have hreq : requiredOf matchloc [] = extractPatternPrefix matchloc := by simp [requiredOf, hp]
  obtain ⟨name, hstart, hle⟩ : ∃ name, startOf matchloc [] = extractPatternPrefix matchloc ++ name ∧
      extractPatternPrefix matchloc ++ name ≤ e.1 := by
    by_cases hlen : (extractPatternPrefix matchloc).length = matchloc.length
    · have hall := (extractPatternPrefix_isPrefix matchloc).eq_of_length hlen
      refine ⟨[hash, hash], by simp [startOf, hp, hlen, hintPrefix, hescape], ?_⟩
      have hhint := hglob.eq_of_match hall hpat
      have hw := hread.written
      rw [hhint, ← hall, hintPrefix, hescape] at hw
      rw [hw]
      exact le_append _ _
    · obtain ⟨rest, hrest⟩ := hpre
      refine ⟨[], by simp [startOf, hp, hlen, hescape], ?_⟩
      rw [List.append_nil, ← hrest]
      exact le_append _ _
  rw [hstart, hreq, mem_visited_iff hs, mem_since_iff Prod.fst hs]
  exact ⟨⟨he, hle⟩, hpre⟩

theorem countP_eq_zero_of_none {matchloc : Bytes} {entries : List (Bytes × Bytes)}
    (h : ∀ e ∈ entries, ¬ EntryMatches stringmatchlen matchloc e) :
    (entries.countP fun e => EntryMatches stringmatchlen matchloc e) = 0 := by
  rw [List.countP_eq_zero]
  intro e he
  simpa using h e he

/-- What the first page of a pattern with a literal prefix goes over, and what stands around it:
it is all that begins with the prefix, from where the page starts, and nothing else matches. -/
theorem first_page (hglob : GlobMatching stringmatchlen) {db : Database} {key : Bytes}
    (h : LocalityHash db key) {matchloc : Bytes} (hp : extractPatternPrefix matchloc ≠ [])
    (hh : hash ∉ extractPatternPrefix matchloc) :
    ∃ pre post, entriesOf db key =
        pre ++ (visited (entriesOf db key) (startOf matchloc []) (requiredOf matchloc []) ++ post) ∧
      (∀ e ∈ visited (entriesOf db key) (startOf matchloc []) (requiredOf matchloc []),
        extractPatternPrefix matchloc <+: e.1) ∧
      (∀ e ∈ pre, ¬ EntryMatches stringmatchlen matchloc e) ∧
      (∀ e ∈ post, ¬ EntryMatches stringmatchlen matchloc e) ∧
      ∀ e, post.head? = some e → ¬ extractPatternPrefix matchloc <+: e.1 := by
  have hs : Sorted Prod.fst (entriesOf db key) := db.sorted_under _
  have hfirst := fun e he hm => mem_first_page hglob h hp hh (e := e) he hm
  have hreq : requiredOf matchloc [] = extractPatternPrefix matchloc := by simp [requiredOf, hp]
  rw [hreq] at hfirst ⊢
  obtain ⟨pre, hpre⟩ := since_suffix Prod.fst (entriesOf db key) (startOf matchloc [])
  have hdrop := List.takeWhile_append_dropWhile
    (p := fun e : Bytes × Bytes => extractPatternPrefix matchloc <+: e.1)
    (l := since Prod.fst (entriesOf db key) (startOf matchloc []))
  have hE : entriesOf db key = pre ++ (visited (entriesOf db key) (startOf matchloc [])
      (extractPatternPrefix matchloc) ++
      (since Prod.fst (entriesOf db key) (startOf matchloc [])).dropWhile
        fun e => extractPatternPrefix matchloc <+: e.1) := by
    rw [visited, hdrop, hpre]
  have hsE := hs
  rw [hE] at hsE
  obtain ⟨-, hsmid, hprelt⟩ := List.pairwise_append.mp hsE
  obtain ⟨-, -, hpostlt⟩ := List.pairwise_append.mp hsmid
  refine ⟨pre, _, hE, fun e he => ?_, fun e he hm => ?_, fun e he hm => ?_, fun e he => ?_⟩
  · simpa using List.mem_takeWhile_imp he
  · exact lt_irrefl e.1 (hprelt e he e (List.mem_append_left _
      (hfirst e (by rw [hE]; exact List.mem_append_left _ he) hm)))
  · exact lt_irrefl e.1 (hpostlt e (hfirst e (by
      rw [hE]; exact List.mem_append_right _ (List.mem_append_right _ he)) hm) e he)
  · have hnot := List.head?_dropWhile_not
      (fun e : Bytes × Bytes => decide (extractPatternPrefix matchloc <+: e.1))
      (since Prod.fst (entriesOf db key) (startOf matchloc []))
    rw [he] at hnot
    simpa using hnot

/-- Where the first page leaves nothing, all that matches is on it. -/
theorem reachesAll_of_one_page (hglob : GlobMatching stringmatchlen) {db : Database} {key : Bytes}
    (h : LocalityHash db key) {matchloc : Bytes} {count : Nat}
    (hp : extractPatternPrefix matchloc ≠ []) (hh : hash ∉ extractPatternPrefix matchloc)
    {seen : List (Bytes × Bytes)}
    (hn : visited (entriesOf db key) (startOf matchloc []) (requiredOf matchloc []) = seen)
    (hroom : HadRoom stringmatchlen matchloc (count * 3 % 2 ^ 64) [] seen) :
    ReachesAll stringmatchlen matchloc count (entriesOf db key) := by
  obtain ⟨pre, post, hE, -, hpre, hpost, -⟩ := first_page hglob h hp hh
  rw [hn] at hE
  refine .inr (.inr ⟨hh, fun before last next rest hsplit hm hfullb e he hme => ?_⟩)
  exfalso
  have hcountE : (entriesOf db key).countP
      (fun e => EntryMatches stringmatchlen matchloc e) ≤ fullPage count := by
    have hle := hroom.countP_le
    rw [hE, List.countP_append, List.countP_append, countP_eq_zero_of_none hpre,
      countP_eq_zero_of_none hpost]
    omega
  have hpos : 0 < (next :: rest).countP fun e => EntryMatches stringmatchlen matchloc e :=
    List.countP_pos_iff.mpr ⟨e, he, by simpa using hme⟩
  rw [hsplit, List.countP_append, List.countP_cons_of_pos (by simpa using hm)] at hcountE
  omega

/-- Where the first page is full, the later ones reach all that matches if it stands under the
hint of the entry right after that page. -/
theorem reachesAll_iff_under {key matchloc : Bytes} {db : Database} {count : Nat}
    (hp : extractPatternPrefix matchloc ≠ []) (hh : hash ∉ extractPatternPrefix matchloc)
    {before rest : List (Bytes × Bytes)} {last next : Bytes × Bytes}
    (hsplit : entriesOf db key = before ++ last :: next :: rest)
    (hm : EntryMatches stringmatchlen matchloc last)
    (hfull : (before.countP fun e => EntryMatches stringmatchlen matchloc e) + 1 =
      fullPage count) :
    ReachesAll stringmatchlen matchloc count (entriesOf db key) ↔
      ∀ e ∈ next :: rest, EntryMatches stringmatchlen matchloc e →
        hintPrefix (hintOf next.1) <+: e.1 := by
  constructor
  · rintro (hnone | hp' | ⟨-, hreach⟩)
    · exact absurd hm (hnone last (by rw [hsplit]; simp))
    · exact absurd hp' hp
    · exact hreach before last next rest hsplit hm hfull
  · refine fun hunder => .inr (.inr ⟨hh, fun before' last' next' rest' hsplit' hm' hfull' => ?_⟩)
    obtain ⟨-, -, htail⟩ := @split_unique _
      (fun e => decide (EntryMatches stringmatchlen matchloc e)) _ _ _ _ _ _
      (hsplit.symm.trans hsplit') (by simpa using hm) (by simpa using hm') (by omega)
    obtain ⟨rfl, rfl⟩ := List.cons.inj htail
    exact hunder

/-- The same, for a literal prefix that has no '#'. -/
theorem reached_with_prefix (hglob : GlobMatching stringmatchlen) {db : Database} {key : Bytes}
    (h : LocalityHash db key) {matchloc : Bytes} {count : Nat} (hcount : IsCount count)
    (hp : extractPatternPrefix matchloc ≠ []) (hh : hash ∉ extractPatternPrefix matchloc)
    (hkept : HintsKept stringmatchlen db key matchloc)
    (hold : CursorsHold stringmatchlen key matchloc count (entriesOf db key)) :
    ∃ (n : Nat) (reached : List (Bytes × Bytes)),
      Traversal (LhscanPage stringmatchlen db key matchloc) []
        (List.replicate (n + 1) count) (reached.flatMap (emitEntry stringmatchlen matchloc)) ∧
      reached.Sublist (entriesOf db key) ∧
      ((∀ e ∈ entriesOf db key, EntryMatches stringmatchlen matchloc e → e ∈ reached) ↔
        ReachesAll stringmatchlen matchloc count (entriesOf db key)) := by
  have hs : Sorted Prod.fst (entriesOf db key) := db.sorted_under _
  have hfirst := fun e he hm => mem_first_page hglob h hp hh (e := e) he hm
  obtain ⟨pre, post, hE, hunderP, hpre, -, -⟩ := first_page hglob h hp hh
  obtain ⟨seen, rest, hn, hcall, hfull, hroom⟩ := lhscan_page hglob h (.inl rfl) matchloc count
  rw [hn] at hE hfirst hunderP
  cases rest with
  | nil =>
    rw [List.append_nil] at hE hfirst hn
    refine ⟨0, seen, .last hcall, ?_,
      iff_of_true hfirst (reachesAll_of_one_page hglob h hp hh hn hroom)⟩
    rw [hE]
    exact (List.sublist_append_left seen post).trans (List.sublist_append_right pre _)
  | cons next rest =>
    obtain ⟨before, last, rfl, hmlast, hfullb⟩ := (hfull (by simp)).split hcount
    have hours : entriesOf db key = (pre ++ before) ++ last :: next :: (rest ++ post) := by
      rw [hE]
      simp
    have hnextE : next ∈ entriesOf db key := by
      rw [hE]
      simp
    have hoursb : ((pre ++ before).countP fun e => EntryMatches stringmatchlen matchloc e) + 1 =
        fullPage count := by
      rw [List.countP_append, countP_eq_zero_of_none hpre, Nat.zero_add]
      exact hfullb
    have hstr : ¬ Stranded key next := hold next ⟨_, last, _, hours, hmlast,
      .inr ⟨hh, hunderP next (by simp), hoursb⟩⟩
    obtain ⟨n, later, ht, hsub, hunder, hall⟩ := later_pages hglob h hp hcount hkept hnextE hstr
    have hview : entriesOf db key = (pre ++ (before ++ [last])) ++ next :: (rest ++ post) := by
      rw [hours]
      simp
    have hlt : ∀ e ∈ before ++ [last], ∀ e' ∈ next :: (rest ++ post), e.1 < e'.1 := by
      intro e he e' he'
      have hsv := hs
      rw [hview] at hsv
      exact (List.pairwise_append.mp hsv).2.2 e (List.mem_append_right _ he) e' he'
    have hfrom : since Prod.fst (entriesOf db key) next.1 = next :: (rest ++ post) := by
      rw [hview] at hs ⊢
      exact since_name Prod.fst hs
    refine ⟨n + 1, (before ++ [last]) ++ later, ?_, ?_, ?_⟩
    · rw [List.replicate_succ, List.flatMap_append]
      exact .more hcall (h.readable next hnextE).ne_nil ht
    · rw [hfrom] at hsub
      rw [hview, List.append_assoc pre]
      refine List.Sublist.trans ?_ (List.sublist_append_right pre _)
      exact (List.Sublist.refl _).append hsub
    rw [reachesAll_iff_under hp hh hours hmlast hoursb]
    constructor
    · intro hreach e he hm
      have heE : e ∈ entriesOf db key := by
        rw [hview]
        exact List.mem_append_right _ he
      rcases List.mem_append.mp (hreach e heE hm) with hin | hin
      · exact absurd (hlt e hin e he) (lt_irrefl _)
      · exact hunder e hin
    · intro hreach e he hm
      rcases List.mem_append.mp (hfirst e he hm) with hin | hin
      · exact List.mem_append_left _ hin
      · have hbehind : e ∈ next :: (rest ++ post) := by
          rw [← List.cons_append]
          exact List.mem_append_left _ hin
        exact List.mem_append_right _ (hall e (by rwa [hfrom]) hm (hreach e hbehind hm))

/-- Where the first page has come to its end, it has left no cursor; else the next one began. -/
theorem not_stranded_with_prefix (hglob : GlobMatching stringmatchlen) {db : Database}
    {key : Bytes} (h : LocalityHash db key) {matchloc : Bytes} {count : Nat}
    (hcount : IsCount count) (hp : extractPatternPrefix matchloc ≠ [])
    (hh : hash ∉ extractPatternPrefix matchloc) {sizes : List Nat} {out : List Bytes}
    (hsizes : ∀ size ∈ sizes, size = count)
    (ht : Traversal (LhscanPage stringmatchlen db key matchloc) [] sizes out)
    {before after : List (Bytes × Bytes)} {last next : Bytes × Bytes}
    (hsplit : entriesOf db key = before ++ last :: next :: after)
    (hm : EntryMatches stringmatchlen matchloc last)
    (hnext : extractPatternPrefix matchloc <+: next.1)
    (hfullb : (before.countP fun e => EntryMatches stringmatchlen matchloc e) + 1 =
      fullPage count) : ¬ Stranded key next := by
  have hread := h.readable next (by rw [hsplit]; simp)
  obtain ⟨pre, post, hE, -, hpre, hpost, hhead⟩ := first_page hglob h hp hh
  obtain ⟨seen, rest, hn, hcall, hfull, hroom⟩ := lhscan_page hglob h (.inl rfl) matchloc count
  rw [hn] at hE
  -- nothing in front of the page matches
  obtain ⟨b, rfl, hb⟩ : ∃ b, before = pre ++ b ∧
      seen ++ (rest ++ post) = b ++ last :: next :: after := by
    rw [hE, List.append_assoc seen] at hsplit
    rcases List.append_eq_append_iff.mp hsplit with ⟨b, hb, hr⟩ | ⟨tail, hpre', htail⟩
    · exact ⟨b, hb, hr⟩
    · cases tail with
      | nil => exact ⟨[], by simpa using hpre'.symm, htail.symm⟩
      | cons x tail =>
        obtain ⟨rfl, -⟩ := List.cons.inj htail
        exact absurd hm (hpre last (by rw [hpre']; simp))
  rw [List.countP_append, countP_eq_zero_of_none hpre, Nat.zero_add] at hfullb
  rcases page_split hb hroom hm (Nat.le_of_eq hfullb.symm) with ⟨-, hrest⟩ | ⟨more, rfl, hrest⟩
  · cases rest with
    | nil => exact absurd hnext (hhead next (by rw [show post = next :: after from hrest]; rfl))
    | cons x rest =>
      obtain ⟨rfl, -⟩ := List.cons.inj hrest
      cases ht with
      | last hpage =>
        obtain rfl := hsizes _ (List.mem_singleton_self _)
        exact absurd (hpage.unique hcall).2.symm hread.ne_nil
      | more hpage _ ht =>
        obtain rfl := hsizes _ List.mem_cons_self
        obtain ⟨size', -, out', next', hcall'⟩ := ht.first
        rw [(hpage.unique hcall).2] at hcall'
        exact LhscanPage.not_stranded h (by rw [hsplit]; simp) hcall'
  · exfalso
    cases rest with
    | nil => exact hpost last (by rw [show post = _ from hrest]; simp) hm
    | cons x rest =>
      obtain ⟨b', last', rfl, hm', hfull'⟩ := (hfull (by simp)).split hcount
      rw [List.countP_append, List.countP_append, List.countP_singleton,
        if_pos (by simpa using hm')] at hfullb
      omega

/-- The entries that the pages of a pattern reach, and when they are all that match. -/
theorem reached_pages (hglob : GlobMatching stringmatchlen) {db : Database} {key : Bytes}
    (h : LocalityHash db key) (matchloc : Bytes) {count : Nat} (hcount : IsCount count)
    (hkept : HintsKept stringmatchlen db key matchloc)
    (hold : CursorsHold stringmatchlen key matchloc count (entriesOf db key)) :
    ∃ (n : Nat) (reached : List (Bytes × Bytes)),
      Traversal (LhscanPage stringmatchlen db key matchloc) []
        (List.replicate (n + 1) count) (reached.flatMap (emitEntry stringmatchlen matchloc)) ∧
      reached.Sublist (entriesOf db key) ∧
      ((∀ e ∈ entriesOf db key, EntryMatches stringmatchlen matchloc e → e ∈ reached) ↔
        ReachesAll stringmatchlen matchloc count (entriesOf db key)) := by
  have hs : Sorted Prod.fst (entriesOf db key) := db.sorted_under _
  by_cases hp : extractPatternPrefix matchloc = []
  · obtain ⟨n, ht⟩ := all_pages hglob h hp hcount hold (List.nil_append _).symm (since_bot _ _) (.inl rfl)
      (Nat.dvd_zero _)
    exact ⟨n, _, ht, List.Sublist.refl _, fun _ => .inr (.inl hp), fun _ e he _ => he⟩
  obtain ⟨seen, rest, hn, hcall, -, -⟩ := lhscan_page hglob h (.inl rfl) matchloc count
  by_cases hh : hash ∈ extractPatternPrefix matchloc
  · -- Nothing begins with the prefix from where the page starts.
    have hempty : visited (entriesOf db key) (startOf matchloc []) (requiredOf matchloc []) = [] := by
      rw [List.eq_nil_iff_forall_not_mem]
      intro e he
      obtain ⟨t, hstart⟩ : ∃ t, startOf matchloc [] =
          escapeHashes (extractPatternPrefix matchloc) ++ t := by
        by_cases hl : (extractPatternPrefix matchloc).length = matchloc.length
        · exact ⟨[hash, hash], by simp [startOf, hp, hl, hintPrefix]⟩
        · exact ⟨[], by simp [startOf, hp, hl]⟩
      have hpre : extractPatternPrefix matchloc <+: e.1 := by
        have := List.mem_takeWhile_imp he
        simpa [requiredOf, hp] using this
      have hle := ((mem_since_iff Prod.fst hs).mp ((List.takeWhile_prefix _).subset he)).2
      rw [hstart] at hle
      exact not_lt.mpr hle (lt_escapeHashes hh hpre t)
    rw [hempty, List.nil_eq, List.append_eq_nil_iff] at hn
    obtain ⟨rfl, rfl⟩ := hn
    refine ⟨0, [], .last hcall, List.nil_sublist _, fun hall => .inl fun e he hm => ?_, ?_⟩
    · exact List.not_mem_nil (hall e he hm)
    · rintro (hnone | hp' | ⟨hh', -⟩) e he hm
      · exact absurd hm (hnone e he)
      · exact absurd hp' hp
      · exact absurd hh hh'
  · exact reached_with_prefix hglob h hcount hp hh hkept hold

theorem cursorsHold_of_traversal (hglob : GlobMatching stringmatchlen) {db : Database}
    {key : Bytes} (h : LocalityHash db key) {matchloc : Bytes} {count : Nat}
    (hcount : IsCount count) {sizes : List Nat} {out : List Bytes}
    (hsizes : ∀ size ∈ sizes, size = count)
    (ht : Traversal (LhscanPage stringmatchlen db key matchloc) [] sizes out) :
    CursorsHold stringmatchlen key matchloc count (entriesOf db key) := by
  rintro next ⟨before, last, rest, hsplit, hm, ⟨hp, hdvd⟩ | ⟨hh, hnext, hfullb⟩⟩
  · exact not_stranded_of_traversal hglob h hp hcount hsizes ht (List.nil_append _).symm (since_bot _ _)
      (.inl rfl) hsplit hm hdvd
  · by_cases hp : extractPatternPrefix matchloc = []
    · exact not_stranded_of_traversal hglob h hp hcount hsizes ht (List.nil_append _).symm
        (since_bot _ _) (.inl rfl) hsplit hm (Dvd.intro_left 1 (by rw [hfullb, Nat.one_mul]))
    · exact not_stranded_with_prefix hglob h hcount hp hh hsizes ht hsplit hm hnext hfullb

/-! ## When a scan is complete -/

/-- A field of a locality hash: its hint, its name and its value. -/
abbrev Triple := Bytes × Bytes × Bytes

def Triple.flatten (t : Triple) : List Bytes := [t.1, t.2.1, t.2.2]

/-- Hint and name, as they are written. -/
def Triple.written (t : Triple) : Bytes := hintPrefix t.1 ++ t.2.1

/-- The pages of this size give the fields whose hint matches, each once and in the order
in which hint and name are written. -/
def ScansAll (stringmatchlen : Bytes → Bytes → Bool) (db : Database) (key matchloc : Bytes)
    (count : Nat) : Prop :=
  ∃ triples : List Triple, Sorted Triple.written triples ∧
    (∀ hint name value, (hint, name, value) ∈ triples ↔
      IsStored db key hint name value ∧ Matches stringmatchlen matchloc hint) ∧
    ∃ n : Nat, Traversal (LhscanPage stringmatchlen db key matchloc) []
      (List.replicate (n + 1) count) (triples.flatMap Triple.flatten)

/-- What an entry reads as. -/
def tripleOf (entry : Bytes × Bytes) : Triple := (hintOf entry.1, nameOf entry.1, entry.2)

theorem flatMap_emitEntry (matchloc : Bytes) (entries : List (Bytes × Bytes)) :
    entries.flatMap (emitEntry stringmatchlen matchloc) =
      ((entries.filter fun e => EntryMatches stringmatchlen matchloc e).map tripleOf).flatMap
        Triple.flatten := by
  induction entries with
  | nil => rfl
  | cons entry entries ih =>
    rw [List.flatMap_cons, ih, emitEntry]
    by_cases hm : EntryMatches stringmatchlen matchloc entry
    · simp [hm, tripleOf, Triple.flatten]
    · simp [hm]

theorem flatten_injective {a b : List Triple}
    (h : a.flatMap Triple.flatten = b.flatMap Triple.flatten) : a = b := by
  induction a generalizing b with
  | nil =>
    cases b with
    | nil => rfl
    | cons t b => simp [Triple.flatten] at h
  | cons t a ih =>
    obtain ⟨t1, t2, t3⟩ := t
    cases b with
    | nil => simp [Triple.flatten] at h
    | cons u b =>
      obtain ⟨u1, u2, u3⟩ := u
      simp only [List.flatMap_cons, Triple.flatten, List.cons_append, List.nil_append,
        List.cons.injEq] at h
      obtain ⟨rfl, rfl, rfl, hrest⟩ := h
      rw [ih hrest]

/-- All that pages give are entries of the hash. -/
theorem results_of_traversal (hglob : GlobMatching stringmatchlen) {db : Database} {key : Bytes}
    (h : LocalityHash db key) {matchloc cursor : Bytes} (hc : IsStart key cursor)
    {sizes : List Nat} {out : List Bytes}
    (ht : Traversal (LhscanPage stringmatchlen db key matchloc) cursor sizes out) :
    ∃ results : List (Bytes × Bytes), (∀ e ∈ results, e ∈ entriesOf db key) ∧
      out = results.flatMap (emitEntry stringmatchlen matchloc) := by
  have hvisited : ∀ start required, ∀ e ∈ visited (entriesOf db key) start required,
      e ∈ entriesOf db key := fun start required e he =>
    (since_suffix Prod.fst _ _).subset ((List.takeWhile_prefix _).subset he)
  induction ht with
  | @last cursor size out hpage =>
    obtain ⟨seen, rest, hn, hcall, -, -⟩ := lhscan_page hglob h hc matchloc size
    exact ⟨seen, fun e he => hvisited _ _ e (by rw [hn]; exact List.mem_append_left _ he),
      (hpage.unique hcall).1⟩
  | @more cursor next size sizes out rest' hpage hne ht ih =>
    obtain ⟨seen, rest, hn, hcall, -, -⟩ := lhscan_page hglob h hc matchloc size
    obtain ⟨hout, hnext⟩ := hpage.unique hcall
    cases rest with
    | nil => exact absurd hnext hne
    | cons x rest =>
      obtain ⟨size', -, out', next', hcall'⟩ := ht.first
      rw [hnext] at hcall' ih
      obtain ⟨results, hin, hrest⟩ := ih
        (LhscanPage.isStart h (hvisited _ _ x (by rw [hn]; simp)) hcall')
      refine ⟨seen ++ results, fun e he => ?_, ?_⟩
      · rcases List.mem_append.mp he with he | he
        · exact hvisited _ _ e (by rw [hn]; exact List.mem_append_left _ he)
        · exact hin e he
      · rw [List.flatMap_append, ← hrest, hout]

/-- What a scan gives is read from its entries, which have not lost the end of their hint. -/
theorem hintsKept_of_scansAll (hglob : GlobMatching stringmatchlen) {db : Database} {key : Bytes}
    (h : LocalityHash db key) {matchloc : Bytes} {count : Nat}
    (hall : ScansAll stringmatchlen db key matchloc count) :
    HintsKept stringmatchlen db key matchloc := by
  obtain ⟨triples, -, hmem, n, ht⟩ := hall
  obtain ⟨results, hin, hout⟩ := results_of_traversal hglob h (.inl rfl) ht
  rw [flatMap_emitEntry] at hout
  have hlist := flatten_injective hout
  intro hint name value hl hstored hm
  have htriple := (hmem hint name value).mpr ⟨hstored, hm⟩
  rw [hlist] at htriple
  obtain ⟨e, he, htriple⟩ := List.mem_map.mp htriple
  have hkept := (h.readable e (hin e (List.mem_of_mem_filter he))).kept
  cases htriple
  exact hkept hl

/-- Pages whose results are those of these entries scan all, where no end of a hint is lost,
exactly when every entry that matches is among them. -/
theorem scansAll_iff_reached {db : Database} {key : Bytes} (h : LocalityHash db key)
    {matchloc : Bytes} (hkept : HintsKept stringmatchlen db key matchloc) {count n : Nat}
    {reached : List (Bytes × Bytes)} (hsub : reached.Sublist (entriesOf db key))
    (ht : Traversal (LhscanPage stringmatchlen db key matchloc) []
      (List.replicate (n + 1) count) (reached.flatMap (emitEntry stringmatchlen matchloc))) :
    ScansAll stringmatchlen db key matchloc count ↔
      ∀ e ∈ entriesOf db key, EntryMatches stringmatchlen matchloc e → e ∈ reached := by
  have hs : Sorted Prod.fst (entriesOf db key) := db.sorted_under _
  have hread : ∀ e ∈ reached, Readable e.1 := fun e he => h.readable e (hsub.subset he)
  constructor
  · rintro ⟨triples, -, hmem, n', ht'⟩ e he hm
    have hout := Traversal.unique (s := count) (fun _ _ _ _ _ => LhscanPage.unique) (by simp)
      (by simp) ht ht'
    rw [flatMap_emitEntry] at hout
    have hlist := flatten_injective hout
    have hreade := h.readable e he
    have hstored : IsStored db key (hintOf e.1) (nameOf e.1) e.2 := by
      rw [isStored_iff, ← hreade.written]
      exact ⟨hreade.hint_ne, he⟩
    have hin := (hmem _ _ _).mpr ⟨hstored, hm⟩
    rw [← hlist] at hin
    obtain ⟨e', he', htriple⟩ := List.mem_map.mp hin
    have he' := List.mem_of_mem_filter he'
    simp only [tripleOf, Prod.mk.injEq] at htriple
    obtain rfl : e' = e :=
      Prod.ext ((hread e' he').eq hreade htriple.1 htriple.2.1) htriple.2.2
    exact he'
  · intro hall
    refine ⟨_, ?_, fun hint name value => ?_, n, by rw [flatMap_emitEntry] at ht; exact ht⟩
    · refine List.pairwise_map.mpr (((hs.sublist hsub).filter _).imp_of_mem ?_)
      intro a b ha hb hlt
      rw [Triple.written, Triple.written, tripleOf, tripleOf]
      rw [← (hread a (List.mem_of_mem_filter ha)).written,
        ← (hread b (List.mem_of_mem_filter hb)).written]
      exact hlt
    · rw [List.mem_map, isStored_iff]
      constructor
      · rintro ⟨e, he, htriple⟩
        obtain ⟨he, hm⟩ := List.mem_filter.mp he
        have hreade := hread e he
        cases htriple
        rw [← hreade.written]
        exact ⟨⟨hreade.hint_ne, hsub.subset he⟩, of_decide_eq_true hm⟩
      · rintro ⟨⟨hh, he⟩, hm⟩
        have hnotlost : ¬ EndIsLost hint name := fun hl => hkept hint name value hl
          (isStored_iff.mpr ⟨hh, he⟩) hm
        obtain ⟨-, h1, h2⟩ := readable_of_kept hh hnotlost
        have hmatch : EntryMatches stringmatchlen matchloc (hintPrefix hint ++ name, value) := by
          rw [EntryMatches, h1]
          exact hm
        refine ⟨(hintPrefix hint ++ name, value),
          List.mem_filter.mpr ⟨hall _ he hmatch, by simpa using hmatch⟩, ?_⟩
        rw [tripleOf, h1, h2]

end Page

/-- Three fields under three hints, their indices and the descriptor of their key. -/
def threeHints : Database :=
  ⟨[(ascii "!k", 101 :: unsignedIntToBinaryString 3), (ascii "ek##da1##f", ascii "1"),
    (ascii "ek##da2##g", ascii "2"), (ascii "ek##da3##h", ascii "3"), (ascii "ek##if", ascii "a1"),
    (ascii "ek##ig", ascii "a2"), (ascii "ek##ih", ascii "a3")], by decide⟩

theorem entriesOf_threeHints : entriesOf threeHints (ascii "k") =
    [(ascii "a1##f", ascii "1"), (ascii "a2##g", ascii "2"), (ascii "a3##h", ascii "3")] := by
  decide +kernel

theorem localityHash_threeHints : LocalityHash threeHints (ascii "k") := by
  refine ⟨by decide, by decide +kernel, fun entry he => ?_⟩
  have he : entry ∈ entriesOf threeHints (ascii "k") := he
  rw [entriesOf_threeHints] at he
  simp only [List.mem_cons, List.not_mem_nil, or_false] at he
  rcases he with rfl | rfl | rfl
  · exact ⟨ascii "a1", ascii "f", by decide, by decide, by decide⟩
  · exact ⟨ascii "a2", ascii "g", by decide, by decide, by decide⟩
  · exact ⟨ascii "a3", ascii "h", by decide, by decide, by decide⟩

theorem stranded_threeHints {next : Bytes × Bytes} (h : next ∈ entriesOf threeHints (ascii "k")) :
    ¬ Stranded (ascii "k") next := by
  rw [entriesOf_threeHints] at h
  simp only [List.mem_cons, List.not_mem_nil, or_false] at h
  rcases h with rfl | rfl | rfl <;> decide +kernel

/-- A hint of 510 bytes that does not match, and ends in '|'. -/
def longHint : Bytes := List.replicate 509 97 ++ [bar]

def twoHints : Database :=
  ⟨[(ascii "!k", 101 :: unsignedIntToBinaryString 2), (ascii "ek##dAb##f", ascii "1"),
    (ascii "ek##d" ++ hintPrefix longHint ++ ascii "#", ascii "2"), (ascii "ek##i#", longHint),
    (ascii "ek##if", ascii "Ab")], by decide +kernel⟩

/-- The field "#" of that hint is the cursor after the first page, and reads as an empty field of
the hint that ends in '#'. -/
example :
    lhscan starMatch twoHints (ascii "k") [] (ascii "?b") 1 =
      .ok (.OK, hintPrefix longHint ++ ascii "#", [ascii "Ab", ascii "f", ascii "1"]) ∧
    lhscan starMatch twoHints (ascii "k") (hintPrefix longHint ++ ascii "#") (ascii "?b") 1 =
      .error .outOfBounds := by decide +kernel

end quarkdb
