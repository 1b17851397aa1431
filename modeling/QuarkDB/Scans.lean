-- HSCAN, SSCAN, SCAN and KEYS: the loops that go over the rows of a hash, of a set and of
-- all descriptors, a page at a time. Whatever the counts are, the pages together are the
-- fields, the elements or the matching keys, each once and in order. The first page of a hash
-- or a set has no cursor, so that a key with a long name has no first page.
import QuarkDB.Iterators
import QuarkDB.StateMachine

namespace quarkdb

open Paging ByteOrder

/-! ## Patterns -/

/-- The characters that are not literal in a pattern: `?*[]\`. -/
def isSpecial (c : UInt8) : Bool := c = 63 || c = 42 || c = 91 || c = 93 || c = 92

/-- The longest prefix of a pattern without special characters. -/
def extractPatternPrefix : Bytes → Bytes
  | [] => []
  | c :: rest => if isSpecial c then [] else c :: extractPatternPrefix rest

/-- What the scans need of glob matching. -/
structure GlobMatching (stringmatchlen : Bytes → Bytes → Bool) : Prop where
  nothing : ∀ str, stringmatchlen [] str = true → str = []
  literal : ∀ c pattern str, isSpecial c = false → stringmatchlen (c :: pattern) str = true →
    ∃ rest, str = c :: rest ∧ stringmatchlen pattern rest = true
  star : ∀ str, stringmatchlen (ascii "*") str = true

/-- What matches a pattern begins with its literal prefix. -/
theorem GlobMatching.prefix_of_match {stringmatchlen : Bytes → Bytes → Bool}
    (h : GlobMatching stringmatchlen) {pattern str : Bytes}
    (hm : stringmatchlen pattern str = true) : extractPatternPrefix pattern <+: str := by
  induction pattern generalizing str with
  | nil => exact List.nil_prefix
  | cons c pattern ih =>
    unfold extractPatternPrefix
    split_ifs with hc
    · exact List.nil_prefix
    · obtain ⟨rest, rfl, hrest⟩ := h.literal c pattern str (by simpa using hc) hm
      exact (List.prefix_cons_inj c).mpr (ih hrest)

/-- A pattern that has no special characters matches itself only. -/
theorem GlobMatching.eq_of_match {stringmatchlen : Bytes → Bytes → Bool}
    (h : GlobMatching stringmatchlen) {pattern str : Bytes}
    (hp : extractPatternPrefix pattern = pattern) (hm : stringmatchlen pattern str = true) :
    str = pattern := by
  induction pattern generalizing str with
  | nil => exact h.nothing str hm
  | cons c pattern ih =>
    unfold extractPatternPrefix at hp
    split_ifs at hp with hc
    obtain ⟨rest, rfl, hrest⟩ := h.literal c pattern str (by simpa using hc) hm
    rw [ih (List.cons.inj hp).2 hrest]

/-- The name is one that a pattern asks for; the empty pattern asks for all. -/
def Matches (stringmatchlen : Bytes → Bytes → Bool) (pattern name : Bytes) : Prop :=
  pattern = [] ∨ stringmatchlen pattern name = true

instance (stringmatchlen : Bytes → Bytes → Bool) (pattern name : Bytes) :
    Decidable (Matches stringmatchlen pattern name) := inferInstanceAs (Decidable (_ ∨ _))

theorem GlobMatching.matches_iff {stringmatchlen : Bytes → Bytes → Bool}
    (h : GlobMatching stringmatchlen) (pattern name : Bytes) :
    (pattern = [] ∨ pattern = ascii "*") ∨ stringmatchlen pattern name = true ↔
      Matches stringmatchlen pattern name := by
  constructor
  · rintro ((he | rfl) | hm)
    · exact .inl he
    · exact .inr (h.star name)
    · exact .inr hm
  · rintro (he | hm)
    · exact .inl (.inl he)
    · exact .inr hm

theorem GlobMatching.prefix_of_matches {stringmatchlen : Bytes → Bytes → Bool}
    (h : GlobMatching stringmatchlen) {pattern name : Bytes}
    (hm : Matches stringmatchlen pattern name) : extractPatternPrefix pattern <+: name := by
  rcases hm with rfl | hm
  · exact List.nil_prefix
  · exact h.prefix_of_match hm

/-! ## The commands -/

namespace Database

def getKeyDescriptor (db : Database) (key : Bytes) : Except Fault KeyDescriptor :=
  match db.get (33 :: key) with
  | none => .ok {}
  | some bytes => KeyDescriptor.ofBytes bytes

def assertKeyType (db : Database) (key : Bytes) (keytype : KeyType) : Except Fault Bool := do
  let keyinfo ← db.getKeyDescriptor key
  return keyinfo.empty || keyinfo.keyType = keytype

/-- The value of a field, as HGET reads it. -/
def field (db : Database) (keyType : KeyType) (key name : Bytes) : Except Fault (Option Bytes) := do
  return db.get (← FieldLocator.ofField keyType key name).toView

/-- The loop of `hscan` and `sscan`, where `emit` is what a row adds to the results. -/
def fieldLoop (keyPrefix : Bytes) (emit : Bytes × Bytes → List Bytes) (limit : Nat) :
    List (Bytes × Bytes) → List Bytes → Bytes × List Bytes
  | [], res => ([], res)
  | (tmp, value) :: rows, res =>
    if ¬ keyPrefix <+: tmp then ([], res)
    else
      let fieldname := tmp.drop keyPrefix.length
      if limit ≤ res.length then (fieldname, res)
      else fieldLoop keyPrefix emit limit rows (res ++ emit (fieldname, value))

/-- What `hscan` and `sscan` share. The results are a status, the new cursor and the
names or names and values. -/
def scanFields (keyType : KeyType) (emit : Bytes × Bytes → List Bytes) (limit : Nat)
    (db : Database) (key cursor : Bytes) : Except Fault (Status × Bytes × List Bytes) := do
  if !(← db.assertKeyType key keyType) then return (wrongType, [], [])
  else
    let locator ← FieldLocator.ofField keyType key cursor
    return (.OK, fieldLoop locator.getPrefix emit limit (db.seek locator.toView) [])

/-- The product with `count` is one of 64-bit numbers. -/
def hscan (db : Database) (key cursor : Bytes) (count : Nat) :
    Except Fault (Status × Bytes × List Bytes) :=
  scanFields .kHash (fun row => [row.1, row.2]) (count * 2 % 2 ^ 64) db key cursor

def sscan (db : Database) (key cursor : Bytes) (count : Nat) :
    Except Fault (Status × Bytes × List Bytes) :=
  scanFields .kSet (fun row => [row.1]) count db key cursor

/-- The loop of `scan`, from the number of iterations so far on. -/
def scanLoop (stringmatchlen : Bytes → Bytes → Bool) (pattern : Bytes) (count : Nat) :
    List (Bytes × Bytes) → Nat → List Bytes → Bytes × List Bytes
  | [], _, results => ([], results)
  | (rkey, _) :: rows, iterations, results =>
    match rkey with
    | [] => ([], results)
    | c :: name =>
      if c ≠ 33 then ([], results)
      else if ¬ extractPatternPrefix pattern <+: name then ([], results)
      else if count < iterations + 1 then (name, results)
      else
        let emptyPattern := pattern = [] ∨ pattern = ascii "*"
        scanLoop stringmatchlen pattern count rows (iterations + 1)
          (if emptyPattern ∨ stringmatchlen pattern name = true then results ++ [name] else results)

/-- The results are added to those that the caller has. -/
def scan (stringmatchlen : Bytes → Bytes → Bool) (db : Database) (cursor pattern : Bytes)
    (count : Nat) (results : List Bytes) : Bytes × List Bytes :=
  let locator := 33 :: (if cursor = [] then extractPatternPrefix pattern else cursor)
  scanLoop stringmatchlen pattern count (db.seek locator) 0 results

/-- The loop of `keys`, for so many calls at most. -/
def keysLoop (stringmatchlen : Bytes → Bytes → Bool) (db : Database) (pattern : Bytes) :
    Nat → Bytes → List Bytes → Option (List Bytes)
  | 0, _, _ => none
  | calls + 1, oldCursor, result =>
    let (newCursor, result) := scan stringmatchlen db oldCursor pattern (2 ^ 64 - 2) result
    if newCursor = [] then some result
    else keysLoop stringmatchlen db pattern calls newCursor result

def keys (stringmatchlen : Bytes → Bytes → Bool) (db : Database) (pattern : Bytes)
    (calls : Nat) : Option (List Bytes) :=
  keysLoop stringmatchlen db pattern calls [] []

/-! ## Pages of fields -/

/-- The loop does not look beyond the first key without the prefix. -/
theorem fieldLoop_takeWhile (keyPrefix : Bytes) (emit : Bytes × Bytes → List Bytes) (limit : Nat)
    (rows : List (Bytes × Bytes)) (res : List Bytes) :
    fieldLoop keyPrefix emit limit rows res =
      fieldLoop keyPrefix emit limit (rows.takeWhile fun row => keyPrefix <+: row.1) res := by
  induction rows generalizing res with
  | nil => rfl
  | cons row rows ih =>
    by_cases hp : keyPrefix <+: row.1
    · rw [List.takeWhile_cons_of_pos (by simpa using hp)]
      unfold fieldLoop
      simp only [hp, not_true_eq_false, if_false]
      split_ifs
      · rfl
      · exact ih _
    · rw [List.takeWhile_cons_of_neg (by simpa using hp)]
      unfold fieldLoop
      simp [hp]

/-- Under its prefix the loop takes rows until the results have reached the limit. -/
theorem fieldLoop_page (keyPrefix : Bytes) (emit : Bytes × Bytes → List Bytes) (limit : Nat)
    (named : List (Bytes × Bytes)) (res : List Bytes) :
    ∃ seen rest, named = seen ++ rest ∧
      fieldLoop keyPrefix emit limit (named.map fun row => (keyPrefix ++ row.1, row.2)) res =
        (cursorOf Prod.fst rest, res ++ seen.flatMap emit) ∧
      (rest ≠ [] → limit ≤ (res ++ seen.flatMap emit).length) := by
  induction named generalizing res with
  | nil => exact ⟨[], [], rfl, by simp [fieldLoop, cursorOf, bot_eq], fun h => absurd rfl h⟩
  | cons row named ih =>
    by_cases hl : limit ≤ res.length
    · refine ⟨[], row :: named, rfl, ?_, fun _ => by simpa using hl⟩
      simp [fieldLoop, hl, cursorOf]
    · obtain ⟨seen, rest, hn, hloop, hlimit⟩ := ih (res ++ emit row)
      refine ⟨row :: seen, rest, by rw [hn, List.cons_append], ?_, fun h => ?_⟩
      · rw [List.append_assoc, ← List.flatMap_cons] at hloop
        simpa [fieldLoop, hl] using hloop
      · simpa using hlimit h

/-- The bytes before the names of the fields of a key. -/
def fieldPrefix (keyType : KeyType) (key : Bytes) : Bytes :=
  appendEscapedString [keyType.toChar] key

/-- A name without a field behind it can be a locator: it needs no block. -/
def ShortName (keyType : KeyType) (key : Bytes) : Prop := (fieldPrefix keyType key).length ≤ 512

theorem ShortName.not_frees {keyType : KeyType} {key : Bytes} (h : ShortName keyType key)
    (field : Bytes) : ¬ FieldLocator.Frees keyType key field :=
  fun hn => Nat.not_lt.mpr h hn.1

theorem field_eq {keyType : KeyType} (ht : keyType.bearsFields = true) (db : Database)
    {key : Bytes} (hs : ShortName keyType key) (name : Bytes) :
    db.field keyType key name = .ok (db.get (fieldPrefix keyType key ++ name)) := by
  obtain ⟨block, hl⟩ := FieldLocator.ofField_eq ht (hs.not_frees name)
  unfold field
  rw [hl]
  rfl

theorem scanFields_eq {keyType : KeyType} (ht : keyType.bearsFields = true) {db : Database}
    {key : Bytes} (hk : db.assertKeyType key keyType = .ok true) (hs : ShortName keyType key)
    (emit : Bytes × Bytes → List Bytes) (limit : Nat) (cursor : Bytes) :
    scanFields keyType emit limit db key cursor =
      .ok (.OK, fieldLoop (fieldPrefix keyType key) emit limit
        (db.seek (fieldPrefix keyType key ++ cursor)) []) := by
  obtain ⟨block, hl⟩ := FieldLocator.ofField_eq ht (hs.not_frees cursor)
  unfold scanFields
  rw [hk, hl]
  simp [bind, Except.bind, pure, Except.pure, FieldLocator.getPrefix, FieldLocator.toView,
    fieldPrefix]

/-- The first call on a key with a long name seeks with what its locator has freed. -/
theorem scanFields_first {keyType : KeyType} (ht : keyType.bearsFields = true) {db : Database}
    {key : Bytes} (hk : db.assertKeyType key keyType = .ok true) (hs : ¬ ShortName keyType key)
    (emit : Bytes × Bytes → List Bytes) (limit : Nat) :
    scanFields keyType emit limit db key [] = .error .outOfBounds := by
  unfold scanFields
  rw [hk, FieldLocator.ofField_frees ht ⟨Nat.lt_of_not_le hs, rfl⟩]
  rfl

/-- The calls of `hscan` and `sscan` read the fields of their key page by page. -/
theorem scanFields_pages {keyType : KeyType} (ht : keyType.bearsFields = true) {db : Database}
    {key : Bytes} (hk : db.assertKeyType key keyType = .ok true) (hs : ShortName keyType key)
    (emit : Bytes × Bytes → List Bytes) (limit : Nat → Nat) (good : Nat → Prop)
    (hgood : ∀ count, good count → 1 ≤ limit count) :
    Pages Prod.fst emit
      (fun cursor count out next =>
        scanFields keyType emit (limit count) db key cursor = .ok (.OK, next, out))
      good (fun _ => True) (db.under (fieldPrefix keyType key)) := by
  have hpage := fun cursor count => fieldLoop_page (fieldPrefix keyType key) emit (limit count)
    (since Prod.fst (db.under (fieldPrefix keyType key)) cursor) []
  have hloop : ∀ cursor count, scanFields keyType emit (limit count) db key cursor =
      .ok (.OK, fieldLoop (fieldPrefix keyType key) emit (limit count)
        ((since Prod.fst (db.under (fieldPrefix keyType key)) cursor).map
          fun row => (fieldPrefix keyType key ++ row.1, row.2)) []) := by
    intro cursor count
    rw [scanFields_eq ht hk hs, fieldLoop_takeWhile, takeWhile_seek]
  refine ⟨db.sorted_under _, fun _ _ => True.intro, fun cursor count _ _ => ?_,
    fun cursor count out next hg _ hp => ?_⟩
  · exact ⟨_, _, hloop cursor count⟩
  · obtain ⟨seen, rest, hn, hl, hlimit⟩ := hpage cursor count
    rw [hloop, hl] at hp
    simp only [List.nil_append, Except.ok.injEq, Prod.mk.injEq, true_and] at hp
    obtain ⟨rfl, rfl⟩ := hp
    refine ⟨seen, rest, hn, rfl, rfl, fun hne => ?_⟩
    rintro rfl
    have h1 := hgood count hg
    have h2 := hlimit hne
    simp only [List.flatMap_nil, List.append_nil, List.length_nil] at h2
    omega

/-! ## Pages of keys -/

section Keys

variable {stringmatchlen : Bytes → Bytes → Bool}

/-- The name of a descriptor with the literal prefix of a pattern. -/
def keyName (pattern : Bytes) (row : Bytes × Bytes) : Bytes := extractPatternPrefix pattern ++ row.1

/-- What a row adds to the results of a scan. -/
def emitKey (stringmatchlen : Bytes → Bytes → Bool) (pattern : Bytes) (row : Bytes × Bytes) :
    List Bytes :=
  if Matches stringmatchlen pattern (keyName pattern row) then [keyName pattern row] else []

theorem scanLoop_takeWhile (pattern : Bytes) (count : Nat) (rows : List (Bytes × Bytes))
    (iterations : Nat) (results : List Bytes) :
    scanLoop stringmatchlen pattern count rows iterations results =
      scanLoop stringmatchlen pattern count
        (rows.takeWhile fun row => 33 :: extractPatternPrefix pattern <+: row.1) iterations
        results := by
  induction rows generalizing iterations results with
  | nil => rfl
  | cons row rows ih =>
    obtain ⟨rkey, value⟩ := row
    by_cases hp : 33 :: extractPatternPrefix pattern <+: rkey
    · rw [List.takeWhile_cons_of_pos (by simpa using hp)]
      obtain ⟨name, rfl⟩ := hp
      simp only [scanLoop, List.cons_append]
      split_ifs <;> first | rfl | exact ih _ _
    · rw [List.takeWhile_cons_of_neg (by simpa using hp)]
      cases rkey with
      | nil => rfl
      | cons c name =>
        by_cases hc : c = 33
        · have hn : ¬ extractPatternPrefix pattern <+: name := fun hn =>
            hp (hc ▸ (List.prefix_cons_inj c).mpr hn)
          simp [scanLoop, hc, hn]
        · simp [scanLoop, hc]

theorem scanLoop_page (hglob : GlobMatching stringmatchlen) (pattern : Bytes) (count : Nat)
    (named : List (Bytes × Bytes)) (iterations : Nat) (results : List Bytes) :
    ∃ seen rest, named = seen ++ rest ∧
      scanLoop stringmatchlen pattern count
          (named.map fun row => (33 :: extractPatternPrefix pattern ++ row.1, row.2)) iterations
          results =
        (cursorOf (keyName pattern) rest,
          results ++ seen.flatMap (emitKey stringmatchlen pattern)) ∧
      (rest ≠ [] → count ≤ iterations + seen.length) := by
  induction named generalizing iterations results with
  | nil => exact ⟨[], [], rfl, by simp [scanLoop, cursorOf, bot_eq], fun h => absurd rfl h⟩
  | cons row named ih =>
    have hname : extractPatternPrefix pattern <+: extractPatternPrefix pattern ++ row.1 :=
      List.prefix_append _ _
    by_cases hl : count < iterations + 1
    · refine ⟨[], row :: named, rfl, ?_, fun _ => by simpa using Nat.lt_succ_iff.mp hl⟩
      simp [scanLoop, hname, hl, cursorOf, keyName]
    · obtain ⟨seen, rest, hn, hloop, hcount⟩ :=
        ih (iterations + 1) (results ++ emitKey stringmatchlen pattern row)
      refine ⟨row :: seen, rest, by rw [hn, List.cons_append], ?_, fun h => ?_⟩
      · rw [List.append_assoc, ← List.flatMap_cons] at hloop
        rw [← hloop]
        simp only [scanLoop, List.map_cons, List.cons_append, hname, hl, not_true_eq_false, if_false,
          ne_eq, hglob.matches_iff, emitKey, keyName]
        by_cases hm : Matches stringmatchlen pattern (extractPatternPrefix pattern ++ row.1) <;>
          simp [hm]
      · have := hcount h
        simp only [List.length_cons]
        omega

theorem sorted_keyName (db : Database) (pattern : Bytes) :
    Sorted (keyName pattern) (db.under (33 :: extractPatternPrefix pattern)) :=
  (db.sorted_under _).imp fun h => (append_lt_append _).mpr h

theorem since_keyName (pattern : Bytes) (named : List (Bytes × Bytes)) (name : Bytes) :
    since (keyName pattern) named (extractPatternPrefix pattern ++ name) =
      since Prod.fst named name := by
  unfold since
  congr 1
  funext row
  simp [keyName, append_lt_append]

/-- A scan that starts at the beginning, or at the name of a row, goes on from there. -/
theorem scan_eq (db : Database) (pattern : Bytes) (count : Nat) (results : List Bytes)
    {cursor : Bytes} (hc : cursor = ⊥ ∨
      cursor ∈ (db.under (33 :: extractPatternPrefix pattern)).map (keyName pattern)) :
    scan stringmatchlen db cursor pattern count results =
      scanLoop stringmatchlen pattern count
        ((since (keyName pattern) (db.under (33 :: extractPatternPrefix pattern)) cursor).map
          fun row => (33 :: extractPatternPrefix pattern ++ row.1, row.2)) 0 results := by
  obtain ⟨name, hstart, hsince⟩ : ∃ name,
      33 :: (if cursor = [] then extractPatternPrefix pattern else cursor) =
        33 :: extractPatternPrefix pattern ++ name ∧
      since (keyName pattern) (db.under (33 :: extractPatternPrefix pattern)) cursor =
        since Prod.fst (db.under (33 :: extractPatternPrefix pattern)) name := by
    by_cases he : cursor = []
    · refine ⟨[], by simp [he], ?_⟩
      rw [he, ← bot_eq, since_bot, since_bot]
    · rcases hc with hb | hm
      · exact absurd hb he
      · obtain ⟨row, -, rfl⟩ := List.mem_map.mp hm
        exact ⟨row.1, by rw [if_neg he, keyName, List.cons_append], since_keyName pattern _ _⟩
  unfold scan
  rw [hstart, scanLoop_takeWhile, takeWhile_seek, hsince]

/-- The calls of `scan` read the descriptors page by page. -/
theorem scan_pages (hglob : GlobMatching stringmatchlen) (db : Database) (pattern : Bytes) :
    Pages (keyName pattern) (emitKey stringmatchlen pattern)
      (fun cursor count out next => scan stringmatchlen db cursor pattern count [] = (next, out))
      (1 ≤ ·) (fun cursor => cursor = ⊥ ∨
        cursor ∈ (db.under (33 :: extractPatternPrefix pattern)).map (keyName pattern))
      (db.under (33 :: extractPatternPrefix pattern)) := by
  refine ⟨sorted_keyName db pattern, fun row hrow => .inr (List.mem_map_of_mem hrow),
    fun cursor count _ _ => ⟨_, _, rfl⟩,
    fun cursor count out next hg hc hp => ?_⟩
  obtain ⟨seen, rest, hn, hl, hcount⟩ := scanLoop_page hglob pattern count
    (since (keyName pattern) (db.under (33 :: extractPatternPrefix pattern)) cursor) 0 []
  rw [scan_eq db pattern count [] hc, hl] at hp
  simp only [List.nil_append, Prod.mk.injEq] at hp
  obtain ⟨rfl, rfl⟩ := hp
  refine ⟨seen, rest, hn, rfl, rfl, fun hne => ?_⟩
  rintro rfl
  have := hcount hne
  simp only [List.length_nil] at this
  omega

theorem scanLoop_results (pattern : Bytes) (count : Nat) (rows : List (Bytes × Bytes))
    (iterations : Nat) (before results : List Bytes) :
    scanLoop stringmatchlen pattern count rows iterations (before ++ results) =
      ((scanLoop stringmatchlen pattern count rows iterations results).1,
        before ++ (scanLoop stringmatchlen pattern count rows iterations results).2) := by
  induction rows generalizing iterations results with
  | nil => rfl
  | cons row rows ih =>
    obtain ⟨rkey, value⟩ := row
    cases rkey with
    | nil => rfl
    | cons c name =>
      simp only [scanLoop]
      by_cases hc : c = 33
      swap
      · simp [hc]
      by_cases hn : extractPatternPrefix pattern <+: name
      swap
      · simp [hn]
      by_cases hl : count < iterations + 1
      · simp [hc, hn, hl]
      · simp only [hc, hn, hl, ne_eq, not_true_eq_false, if_false, ← ih]
        congr 1
        split_ifs <;> simp

/-- The results that a call is given come before its own. -/
theorem scan_results (db : Database) (cursor pattern : Bytes) (count : Nat)
    (results : List Bytes) :
    scan stringmatchlen db cursor pattern count results =
      ((scan stringmatchlen db cursor pattern count []).1,
        results ++ (scan stringmatchlen db cursor pattern count []).2) := by
  have h := @scanLoop_results stringmatchlen pattern count
    (db.seek (33 :: (if cursor = [] then extractPatternPrefix pattern else cursor))) 0 results []
  rw [List.append_nil] at h
  exact h

/-- The loop of `keys` is a traversal. -/
theorem keysLoop_of_traversal {db : Database} {pattern cursor : Bytes} {sizes : List Nat}
    {out : List Bytes} (hs : ∀ size ∈ sizes, size = 2 ^ 64 - 2)
    (ht : Traversal (fun cursor count out next =>
      scan stringmatchlen db cursor pattern count [] = (next, out)) cursor sizes out)
    (calls : Nat) (hc : sizes.length ≤ calls) (result : List Bytes) :
    keysLoop stringmatchlen db pattern calls cursor result = some (result ++ out) := by
  induction ht generalizing calls result with
  | last hp =>
    obtain ⟨calls, rfl⟩ : ∃ n, calls = n + 1 := ⟨calls - 1, by simp at hc; omega⟩
    obtain rfl := hs _ (List.mem_singleton_self _)
    rw [keysLoop, scan_results, hp]
    simp [bot_eq]
  | more hp hn _ ih =>
    obtain ⟨calls, rfl⟩ : ∃ n, calls = n + 1 := ⟨calls - 1, by simp at hc; omega⟩
    obtain rfl := hs _ List.mem_cons_self
    rw [keysLoop, scan_results, hp]
    simp only [List.length_cons, Nat.add_le_add_iff_right] at hc
    rw [bot_eq] at hn
    simp only [hn, if_false]
    rw [ih (fun size h => hs size (List.mem_cons_of_mem _ h)) calls hc, List.append_assoc]

end Keys

end Database

/-! ## All pages -/

open Database

/-- A count that a request can ask for: a positive 64-bit number. -/
def IsCount (count : Nat) : Prop := 1 ≤ count ∧ count < 2 ^ 63

section Complete

variable {stringmatchlen : Bytes → Bytes → Bool}

theorem mem_fields_iff {keyType : KeyType} (ht : keyType.bearsFields = true) {db : Database}
    {key name value : Bytes} (hs : ShortName keyType key) :
    (name, value) ∈ db.under (fieldPrefix keyType key) ↔
      db.field keyType key name = .ok (some value) := by
  rw [mem_under_iff, field_eq ht db hs, Except.ok.injEq]

theorem hscan_reads_all {db : Database} {key : Bytes}
    (hk : db.assertKeyType key .kHash = .ok true) (hs : ShortName .kHash key) :
    ReadsAll (fun cursor count out next => hscan db key cursor count = .ok (.OK, next, out)) IsCount
      ((db.under (fieldPrefix .kHash key)).flatMap fun row => [row.1, row.2]) :=
  (scanFields_pages rfl hk hs _ (fun count => count * 2 % 2 ^ 64) IsCount fun count hc => by
    obtain ⟨h1, h2⟩ := hc
    rw [Nat.mod_eq_of_lt (by omega)]
    omega).readsAll True.intro

theorem sscan_reads_all {db : Database} {key : Bytes}
    (hk : db.assertKeyType key .kSet = .ok true) (hs : ShortName .kSet key) :
    ReadsAll (fun cursor count out next => sscan db key cursor count = .ok (.OK, next, out)) IsCount
      ((db.under (fieldPrefix .kSet key)).flatMap fun row => [row.1]) :=
  (scanFields_pages rfl hk hs _ (fun count => count) IsCount fun _ hc => hc.1).readsAll True.intro

/-- A scan without a first page reads nothing. -/
theorem shortName_of_readsAll {keyType : KeyType} (ht : keyType.bearsFields = true)
    {db : Database} {key : Bytes} (hk : db.assertKeyType key keyType = .ok true)
    {emit : Bytes × Bytes → List Bytes} (limit : Nat → Nat) {all : List Bytes}
    (h : ReadsAll (fun cursor count out next =>
      scanFields keyType emit (limit count) db key cursor = .ok (.OK, next, out)) IsCount all) :
    ShortName keyType key := by
  by_contra hs
  obtain ⟨n, ht'⟩ := h.1 (fun _ => 1) fun _ => ⟨le_rfl, by decide⟩
  obtain ⟨size, -, out, next, hcall⟩ := ht'.first
  have hfirst := scanFields_first ht hk hs emit (limit size)
  rw [← bot_eq, hcall] at hfirst
  cases hfirst

/-- The keys that match a pattern, in order. -/
def matching (stringmatchlen : Bytes → Bytes → Bool) (db : Database) (pattern : Bytes) :
    List Bytes :=
  (db.under (33 :: extractPatternPrefix pattern)).flatMap (emitKey stringmatchlen pattern)

theorem matching_eq_filter (db : Database) (pattern : Bytes) :
    matching stringmatchlen db pattern =
      ((db.under (33 :: extractPatternPrefix pattern)).map (keyName pattern)).filter
        fun name => Matches stringmatchlen pattern name := by
  unfold matching
  induction db.under (33 :: extractPatternPrefix pattern) with
  | nil => rfl
  | cons row rows ih =>
    rw [List.flatMap_cons, ih, List.map_cons, List.filter_cons, emitKey]
    by_cases hm : Matches stringmatchlen pattern (keyName pattern row) <;> simp [hm]

theorem sorted_matching (db : Database) (pattern : Bytes) :
    (matching stringmatchlen db pattern).Pairwise (· < ·) := by
  rw [matching_eq_filter]
  exact (List.pairwise_map.mpr (sorted_keyName db pattern)).filter _

theorem mem_matching_iff (hglob : GlobMatching stringmatchlen) (db : Database)
    (pattern name : Bytes) :
    name ∈ matching stringmatchlen db pattern ↔
      (db.get (33 :: name)).isSome ∧ Matches stringmatchlen pattern name := by
  rw [matching_eq_filter, List.mem_filter, List.mem_map, decide_eq_true_eq]
  refine and_congr_left fun hm => ?_
  obtain ⟨rest, rfl⟩ := hglob.prefix_of_matches hm
  rw [Option.isSome_iff_exists]
  constructor
  · rintro ⟨⟨rest', value⟩, hrow, he⟩
    obtain rfl : rest' = rest := List.append_cancel_left he
    exact ⟨value, mem_under_iff.mp hrow⟩
  · rintro ⟨value, hv⟩
    exact ⟨(rest, value), mem_under_iff.mpr hv, rfl⟩

/-- Whatever the counts are, the pages of HSCAN come to an end and are the fields of the hash,
each once, in the order of the bytes. -/
def HscanIsWhole (db : Database) (key : Bytes) : Prop :=
  ∃ fields : List (Bytes × Bytes), Sorted Prod.fst fields ∧
    (∀ name value, (name, value) ∈ fields ↔ db.field .kHash key name = .ok (some value)) ∧
    ReadsAll (fun cursor count out next => hscan db key cursor count = .ok (.OK, next, out))
      IsCount (fields.flatMap fun row => [row.1, row.2])

/-- The same for SSCAN and the elements of a set. -/
def SscanIsWhole (db : Database) (key : Bytes) : Prop :=
  ∃ elements : List Bytes, elements.Pairwise (· < ·) ∧
    (∀ element, element ∈ elements ↔ ∃ value, db.field .kSet key element = .ok (some value)) ∧
    ReadsAll (fun cursor count out next => sscan db key cursor count = .ok (.OK, next, out))
      IsCount elements

/-- The same for SCAN and the keys that match a pattern, and KEYS gives these too. -/
def ScanIsWhole (stringmatchlen : Bytes → Bytes → Bool) (db : Database) (pattern : Bytes) : Prop :=
  ∃ names : List Bytes, names.Pairwise (· < ·) ∧
    (∀ name, name ∈ names ↔
      (db.get (33 :: name)).isSome ∧ Matches stringmatchlen pattern name) ∧
    ReadsAll (fun cursor count out next =>
      scan stringmatchlen db cursor pattern count [] = (next, out)) IsCount names ∧
    ∃ calls, ∀ n ≥ calls, keys stringmatchlen db pattern n = some names

/-- The pages of HSCAN and of SSCAN are the whole exactly if the type, the escaped name of the
key and its end are no more than 512 bytes. Those of SCAN always are, and what KEYS answers. -/
theorem the_pages_of_a_scan_are_the_whole_iff (hglob : GlobMatching stringmatchlen)
    (db : Database) :
    (∀ key, db.assertKeyType key .kHash = .ok true →
      (HscanIsWhole db key ↔ ShortName .kHash key)) ∧
    (∀ key, db.assertKeyType key .kSet = .ok true →
      (SscanIsWhole db key ↔ ShortName .kSet key)) ∧
    ∀ pattern, ScanIsWhole stringmatchlen db pattern := by
  refine ⟨fun key hk => ⟨?_, fun hs => ?_⟩, fun key hk => ⟨?_, fun hs => ?_⟩, fun pattern => ?_⟩
  · rintro ⟨fields, -, -, hall⟩
    exact shortName_of_readsAll rfl hk (fun count => count * 2 % 2 ^ 64) hall
  · exact ⟨_, db.sorted_under _, fun _ _ => mem_fields_iff rfl hs, hscan_reads_all hk hs⟩
  · rintro ⟨elements, -, -, hall⟩
    exact shortName_of_readsAll rfl hk (fun count => count) hall
  · have hall := sscan_reads_all hk hs
    have hmap : ((db.under (fieldPrefix .kSet key)).flatMap fun row => [row.1]) =
        (db.under (fieldPrefix .kSet key)).map Prod.fst := List.map_eq_flatMap.symm
    rw [hmap] at hall
    refine ⟨_, List.pairwise_map.mpr (db.sorted_under _), fun element => ?_, hall⟩
    simp only [List.mem_map, Prod.exists, exists_and_right, exists_eq_right,
      mem_fields_iff (show KeyType.kSet.bearsFields = true from rfl) hs]
  · have hpages := scan_pages hglob db pattern
    have hall := hpages.readsAll (.inl rfl)
    refine ⟨_, sorted_matching db pattern, mem_matching_iff hglob db pattern,
      ⟨fun sizes hs => hall.1 sizes fun i => (hs i).1,
        fun sizes out hs => hall.2 sizes out fun size h => (hs size h).1⟩, ?_⟩
    obtain ⟨n, ht⟩ := hall.1 (fun _ => 2 ^ 64 - 2) fun _ => by decide
    refine ⟨n + 1, fun calls hc => ?_⟩
    have hkeys := keysLoop_of_traversal (by simp) ht calls (by simpa using hc) []
    rw [List.nil_append] at hkeys
    exact hkeys

end Complete

/-- Glob matching for patterns whose special characters are '*' and '?'. -/
def starMatch : Bytes → Bytes → Bool
  | [], str => str.isEmpty
  | c :: pattern, str =>
    if c = 42 then str.tails.any (starMatch pattern)
    else
      match str with
      | [] => false
      | d :: rest => (c = 63 || c = d) && starMatch pattern rest

theorem globMatching_starMatch : GlobMatching starMatch := by
  constructor
  · intro str h
    simpa [starMatch] using h
  · intro c pattern str hc h
    have h42 : c ≠ 42 := by
      rintro rfl
      exact absurd hc (by decide)
    have h63 : c ≠ 63 := by
      rintro rfl
      exact absurd hc (by decide)
    cases str with
    | nil => simp [starMatch, h42] at h
    | cons d rest =>
      simp only [starMatch, h42, h63, if_false, decide_false, Bool.false_or, Bool.and_eq_true,
        decide_eq_true_eq] at h
      exact ⟨rest, by rw [h.1], h.2⟩
  · intro str
    have h : ascii "*" = [42] := by decide
    rw [h]
    simp only [starMatch, if_true, List.any_eq_true, List.mem_tails]
    exact ⟨[], List.nil_suffix, rfl⟩

/-- A hash "ab" with two fields, and a set "b" with one element. -/
def twoKeys : Database :=
  ⟨[(ascii "!ab", 98 :: unsignedIntToBinaryString 2), (ascii "!b", 99 :: unsignedIntToBinaryString 1),
    (ascii "bab##f", ascii "1"), (ascii "bab##g", ascii "2"), (ascii "cb##e", ascii "1")],
    by decide⟩

/-- The scans of the hash, of the set, and for the keys that begin with 'a'. Page by page, the
hash is read with the name of its second field as the cursor. -/
theorem the_keys_of_two_are_scanned :
    HscanIsWhole twoKeys (ascii "ab") ∧ SscanIsWhole twoKeys (ascii "b") ∧
    (hscan twoKeys (ascii "ab") [] 1 = .ok (.OK, ascii "g", [ascii "f", ascii "1"]) ∧
      hscan twoKeys (ascii "ab") (ascii "g") 1 = .ok (.OK, [], [ascii "g", ascii "2"])) ∧
    ReadsAll (fun cursor count out next => scan starMatch twoKeys cursor (ascii "a*") count [] =
      (next, out)) IsCount [ascii "ab"] := by
  have h := the_pages_of_a_scan_are_the_whole_iff globMatching_starMatch twoKeys
  refine ⟨(h.1 (ascii "ab") (by decide +kernel)).mpr (show _ ≤ _ by decide),
    (h.2.1 (ascii "b") (by decide +kernel)).mpr (show _ ≤ _ by decide),
    ⟨by decide +kernel, by decide +kernel⟩, ?_⟩
  obtain ⟨names, -, -, hall, calls, hkeys⟩ := h.2.2 (ascii "a*")
  have hfirst : keys starMatch twoKeys (ascii "a*") (calls + 1) = some [ascii "ab"] := by
    unfold keys keysLoop
    have hscan : scan starMatch twoKeys [] (ascii "a*") (2 ^ 64 - 2) [] = ([], [ascii "ab"]) := by
      decide +kernel
    rw [hscan]
    rfl
  rw [hkeys (calls + 1) (by omega), Option.some.injEq] at hfirst
  rw [← hfirst]
  exact hall

/-- A name of 510 bytes. -/
def longName : Bytes := List.replicate 510 97

/-- A hash with this name, and one field. -/
def longHash : Database :=
  ⟨[(33 :: longName, 98 :: unsignedIntToBinaryString 1),
    (fieldPrefix .kHash longName ++ ascii "f", ascii "v")], by decide +kernel⟩

theorem a_hash_with_a_long_name_is_not_scanned :
    longHash.assertKeyType longName .kHash = .ok true ∧
    longHash.field .kHash longName (ascii "f") = .ok (some (ascii "v")) ∧
    hscan longHash longName [] 10 = .error .outOfBounds ∧ ¬ HscanIsWhole longHash longName := by
  have htype : longHash.assertKeyType longName .kHash = .ok true := by decide +kernel
  have hlong : ¬ ShortName .kHash longName := by
    show ¬ _ ≤ _
    rw [fieldPrefix, length_appendEscapedString, longName, List.length_replicate,
      List.length_singleton]
    omega
  refine ⟨htype, by decide +kernel, scanFields_first rfl htype hlong _ _, ?_⟩
  rintro ⟨fields, -, -, hall⟩
  exact hlong (shortName_of_readsAll rfl htype (fun count => count * 2 % 2 ^ 64) hall)

end quarkdb
