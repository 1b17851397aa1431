-- DEQUE_SCAN_BACK: a deque is read from its back to its front, a page at a time. A count that
-- is larger than the index just behind the last item makes the first index of a page wrap
-- around, and the scan never ends.
import QuarkDB.Deques
import QuarkDB.Frames
import QuarkDB.Rebuilding
import QuarkDB.ScanCommands
import QuarkDB.Scans
import QuarkDB.SingleDeletes

namespace quarkdb

open Endian StateMachine StagingArea Tally Outcome RedisDispatcher Paging ByteOrder

namespace Database

/-! ## The command -/

/-- The loop of `dequeScanBack`: so many turns, from an index on. -/
def itemsLoop (locatorPrefix : Bytes) :
    Nat → UInt64 → List (Bytes × Bytes) → Except Fault (List Bytes)
  | 0, _, _ => .ok []
  | _ + 1, _, [] => .error (.assertion "iter->Valid()")
  | turns + 1, i, row :: rows => do
    qdbAssert (locatorPrefix ++ unsignedIntToBinaryString i = row.1)
      "locator.toView() == iter->key().ToStringView()"
    let res ← itemsLoop locatorPrefix turns (i + 1) rows
    return row.2 :: res

/-- Where a page ends: at the cursor, but not behind the last item. -/
def cursorMarker (keyinfo : KeyDescriptor) (cursor : Bytes) : UInt64 :=
  if cursor.length = 0 then keyinfo.endIndex
  else if keyinfo.endIndex < binaryStringToUnsignedInt cursor then keyinfo.endIndex
  else binaryStringToUnsignedInt cursor

/-- The results are a status, the new cursor and the items. -/
def dequeScanBack (db : Database) (key cursor : Bytes) (count : UInt64) :
    Except Fault (Status × Bytes × List Bytes) := do
  let keyinfo ← db.getKeyDescriptor key
  if !keyinfo.empty && keyinfo.keyType ≠ .kDeque then return (wrongType, [], [])
  else if keyinfo.sz = 0 then return (.OK, [], [])
  else if cursor.length ≠ 0 ∧ cursor.length ≠ 8 then return (malformed "invalid cursor", [], [])
  else
    let cursorMarker := cursorMarker keyinfo cursor
    let begins := cursorMarker - count
    let (newCursor, startingMarker) :=
      if begins ≤ keyinfo.startIndex + 1 then ([], keyinfo.startIndex + 1)
      else (unsignedIntToBinaryString begins, begins)
    let locator ← FieldLocator.ofField .kDeque key (unsignedIntToBinaryString startingMarker)
    let res ← itemsLoop locator.getPrefix (cursorMarker.toNat - startingMarker.toNat) startingMarker
      (db.seek locator.toView)
    return (.OK, newCursor, res)

/-- The case of `DEQUE_SCAN_BACK`: an error, or the marker of the next page and the items of
this one. -/
def answerDequeScanBack (db : Database) : RedisRequest → Except Fault (Bytes ⊕ Bytes × List Bytes)
  | _ :: key :: cursor :: options => do
    let args ← parseScanCommand false false (cursor :: options)
    if args.error ≠ [] then return .inl (Formatter.err args.error)
    else
      let (st, newcursor, vec) ← db.dequeScanBack key args.cursor (UInt64.ofNat (word args.count))
      if st.ok then return .inr (markerOf newcursor, vec)
      else return .inl (Formatter.fromStatus st)
  | request => .ok (.inl (Formatter.errArgs (request.headD [])))

def dispatchDequeScanBack (db : Database) (request : RedisRequest) : Except Fault Bytes := do
  match ← db.answerDequeScanBack request with
  | .inl reply => return reply
  | .inr (marker, vec) => return Formatter.scan marker vec

/-- A call that asks for a page, and one that is answered so. -/
def ScansBack (db : Database) (key cursor : Bytes) (count : Nat) (pages : List (List Bytes))
    (next : Bytes) : Prop :=
  ∃ items, pages = [items] ∧
    db.answerDequeScanBack
        [ascii "DEQUE-SCAN-BACK", key, markerOf cursor, ascii "COUNT", decimal count] =
      .ok (.inr (markerOf next, items))

/-! ## The records of a store -/

/-- The database has the records of a store, and no others. -/
def Records (db : Database) (store : Store) : Prop := db.rows = rawRecords store

section

variable {db : Database} {store : Store} {key : Bytes}

theorem Records.get_iff (h : db.Records store) {raw value : Bytes} :
    db.get raw = some value ↔ ∃ k : StoreKey, k.toRaw = raw ∧ store.lookup k = some value := by
  rw [← mem_rows_iff, h, rawRecords, List.mem_map]
  constructor
  · rintro ⟨⟨k, v⟩, hm, he⟩
    cases he
    exact ⟨k, rfl, mem_sortedEntries.mp hm⟩
  · rintro ⟨k, rfl, hl⟩
    exact ⟨(k, value), mem_sortedEntries.mpr hl, rfl⟩

theorem Records.getKeyDescriptor_eq (h : db.Records store) {bytes : Bytes}
    (hl : store.lookup (.descriptor key) = some bytes) :
    db.getKeyDescriptor key = KeyDescriptor.ofBytes bytes := by
  have hraw : (StoreKey.descriptor key).toRaw = 33 :: key := by
    have hmark : ascii "!" = [33] := by decide
    simp [StoreKey.toRaw, hmark]
  have hg : db.get (33 :: key) = some bytes := h.get_iff.mpr ⟨_, hraw, hl⟩
  unfold Database.getKeyDescriptor
  rw [hg]

/-- What lies under the prefix of a deque is its own, or of a key that reads as it. -/
theorem under_deque {k : StoreKey} {name : Bytes}
    (h : k.toRaw = fieldPrefix .kDeque key ++ name) :
    k = .field .kDeque key name ∨
      ∃ key' name', k = .field .kDeque key' name' ∧ ReadsAs key key' name' := by
  have hmarks : ascii "!" = [33] ∧ ascii "@" = [64] ∧ ascii "~" = [126] := by decide
  have hclock : ascii "__clock" = 95 :: ascii "_clock" := by decide
  have happlied : ascii "__last-applied" = 95 :: ascii "_last-applied" := by decide
  have hhead : k.toRaw.head? = some 100 := by
    rw [h]
    rfl
  cases k with
  | field type key' name' =>
    have ht : type = .kDeque := by
      cases type <;> first | rfl | exact absurd hhead (by simp [StoreKey.toRaw,
        appendEscapedString, KeyType.toChar])
    subst ht
    have hp : appendEscapedString [KeyType.kDeque.toChar] key <+:
        appendEscapedString [KeyType.kDeque.toChar] key' ++ name' := ⟨name, h.symm⟩
    have hread : key = key' ∨ ReadsAs key key' name' := by
      rw [← escaped_prefix_iff]
      simpa [appendEscapedString, List.cons_prefix_cons] using hp
    rcases hread with rfl | hread
    · left
      rw [List.append_cancel_left (h : fieldPrefix .kDeque key ++ name' = _)]
    · exact .inr ⟨key', name', rfl, hread⟩
  | _ => simp [StoreKey.toRaw, hmarks, hclock, happlied, localityPrefix, appendEscapedString,
      KeyType.toChar] at hhead

/-- Items with their indices, as the names of fields. -/
def indexed : Nat → List Bytes → List (Bytes × Bytes)
  | _, [] => []
  | i, item :: items => (unsignedIntToBinaryString (UInt64.ofNat i), item) :: indexed (i + 1) items

theorem mem_indexed {first : Nat} {items : List Bytes} {row : Bytes × Bytes} :
    row ∈ indexed first items ↔
      ∃ i, items[i]? = some row.2 ∧ row.1 = unsignedIntToBinaryString (UInt64.ofNat (first + i)) := by
  induction items generalizing first with
  | nil => simp [indexed]
  | cons item items ih =>
    rw [indexed, List.mem_cons, ih]
    constructor
    · rintro (rfl | ⟨i, hi, hrow⟩)
      · exact ⟨0, rfl, rfl⟩
      · refine ⟨i + 1, hi, ?_⟩
        rw [hrow, show first + (i + 1) = first + 1 + i by omega]
    · rintro ⟨i, hi, hrow⟩
      cases i with
      | zero =>
        left
        cases hi
        exact Prod.ext hrow rfl
      | succ i =>
        right
        refine ⟨i, hi, ?_⟩
        rw [hrow, show first + (i + 1) = first + 1 + i by omega]

/-- The names of the items stand in the order of their indices. -/
theorem index_lt_iff {i j : Nat} (hi : i < 2 ^ 64) (hj : j < 2 ^ 64) :
    unsignedIntToBinaryString (UInt64.ofNat i) < unsignedIntToBinaryString (UInt64.ofNat j) ↔
      i < j := by
  have hlen := fun n => length_unsignedIntToBinaryString n
  rw [lt_iff_of_length_eq (by rw [hlen, hlen])]
  unfold unsignedIntToBinaryString
  rw [List.reverse_reverse, List.reverse_reverse, UInt64.toNat_ofNat', UInt64.toNat_ofNat',
    Nat.mod_eq_of_lt hi, Nat.mod_eq_of_lt hj, ofLittle_toLittle (by omega),
    ofLittle_toLittle (by omega)]

theorem index_le_iff {i j : Nat} (hi : i < 2 ^ 64) (hj : j < 2 ^ 64) :
    unsignedIntToBinaryString (UInt64.ofNat i) ≤ unsignedIntToBinaryString (UInt64.ofNat j) ↔
      i ≤ j := by
  rw [← not_lt, index_lt_iff hj hi, not_lt]

theorem sorted_indexed {first : Nat} {items : List Bytes} (h : first + items.length ≤ 2 ^ 64) :
    Sorted Prod.fst (indexed first items) := by
  induction items generalizing first with
  | nil => exact List.Pairwise.nil
  | cons item items ih =>
    rw [List.length_cons] at h
    refine List.pairwise_cons.mpr ⟨fun row hrow => ?_, ih (by omega)⟩
    obtain ⟨i, hi, hr⟩ := mem_indexed.mp hrow
    have hlt := (List.getElem?_eq_some_iff.mp hi).1
    rw [hr, index_lt_iff (by omega) (by omega)]
    omega

/-- An index that is not small does not begin with '#'. -/
theorem hash_lt_index {i : Nat} (h1 : 2 ^ 62 ≤ i) (h2 : i < 2 ^ 64) (rest : Bytes) :
    hash :: rest < unsignedIntToBinaryString (UInt64.ofNat i) := by
  have hlen := length_unsignedIntToBinaryString (UInt64.ofNat i)
  rcases hs : unsignedIntToBinaryString (UInt64.ofNat i) with _ | ⟨c, bytes⟩
  · rw [hs] at hlen
    cases hlen
  rw [hs, List.length_cons] at hlen
  have hvalue : ofLittle (c :: bytes).reverse = i := by
    rw [← hs, unsignedIntToBinaryString, List.reverse_reverse, UInt64.toNat_ofNat',
      Nat.mod_eq_of_lt h2, ofLittle_toLittle (by omega)]
  have hrest := ofLittle_lt bytes.reverse
  rw [List.length_reverse, show bytes.length = 7 by omega] at hrest
  rw [List.reverse_cons, ofLittle_append, List.length_reverse, show bytes.length = 7 by omega] at hvalue
  simp only [ofLittle] at hvalue
  refine List.cons_lt_cons_iff.mpr (.inl ?_)
  rw [UInt8.lt_iff_toNat_lt, show hash.toNat = 35 from rfl]
  omega

/-- The fields of the deques of other keys do not begin with '#': none is an item of a key that
reads as the other. -/
def Apart (key : Bytes) (store : Store) : Prop :=
  ∀ key' name, key' ≠ key → .field .kDeque key' name ∈ store → name.head? ≠ some hash

/-- From an index of a deque on, the database has the items in order. -/
theorem Records.since_items (h : db.Records store) (ha : Apart key store) {first start : Nat}
    {items : List Bytes} (hi : Items store key first items) (h1 : 2 ^ 62 ≤ start)
    (h2 : first ≤ start) (h3 : start ≤ first + items.length) (h4 : first + items.length < 2 ^ 64) :
    since Prod.fst (db.under (fieldPrefix .kDeque key))
        (unsignedIntToBinaryString (UInt64.ofNat start)) =
      indexed start (items.drop (start - first)) := by
  have hsorted := db.sorted_under (fieldPrefix .kDeque key)
  have hsince : Sorted Prod.fst (since Prod.fst (db.under (fieldPrefix .kDeque key))
      (unsignedIntToBinaryString (UInt64.ofNat start))) := hsorted.sublist (since_suffix _ _ _).sublist
  have hindexed : Sorted Prod.fst (indexed start (items.drop (start - first))) := by
    apply sorted_indexed
    rw [List.length_drop]
    omega
  have hmem : ∀ row : Bytes × Bytes, row ∈ since Prod.fst (db.under (fieldPrefix .kDeque key))
      (unsignedIntToBinaryString (UInt64.ofNat start)) ↔
        row ∈ indexed start (items.drop (start - first)) := by
    rintro ⟨name, value⟩
    rw [mem_since_iff _ hsorted, mem_under_iff, h.get_iff, mem_indexed]
    constructor
    · rintro ⟨⟨k, hraw, hl⟩, hle⟩
      have hk : k ∈ store := AList.lookup_isSome.mp (by rw [hl]; rfl)
      rcases under_deque hraw with rfl | ⟨key', name', rfl, stem, ⟨rfl, rfl⟩ | ⟨rfl, rfl, hhead⟩⟩
      · obtain ⟨j, hj1, hj2, rfl⟩ := (hi.deque.window.items name).mp hk
        rw [index_le_iff (by omega) (by omega)] at hle
        have hs := hi.stored (j - first) _ (List.getElem?_eq_getElem (by omega))
        rw [show first + (j - first) = j by omega, hl] at hs
        refine ⟨j - start, ?_, by rw [show start + (j - start) = j by omega]⟩
        rw [List.getElem?_drop, show start - first + (j - start) = j - first by omega, hs]
        exact List.getElem?_eq_getElem (by omega)
      · -- the record of a key that ends in '#' begins with a '#' here
        have hname : name = hash :: name' := by
          simp only [StoreKey.toRaw, fieldPrefix, appendEscapedString, escapeHashes_append,
            List.cons_append, List.nil_append, List.append_assoc, escapeHashes_hash,
            escapeHashes_of_ne bar_ne_hash, escapeHashes_nil] at hraw
          simpa using hraw.symm
        rw [hname] at hle
        exact absurd hle (not_le.mpr (hash_lt_index h1 (by omega) _))
      · refine absurd hhead (ha _ _ (fun he => ?_) hk)
        exact bar_ne_hash (List.cons.inj (List.append_cancel_left he)).1
    · rintro ⟨i, hg, rfl⟩
      rw [List.getElem?_drop] at hg
      have hlt := (List.getElem?_eq_some_iff.mp hg).1
      have hs := hi.stored _ _ hg
      rw [show first + (start - first + i) = start + i by omega] at hs
      refine ⟨⟨_, rfl, hs⟩, ?_⟩
      rw [index_le_iff (by omega) (by omega)]
      omega
  exact hsince.eq_of_mem_iff Prod.fst hindexed hmem

end

/-! ## Pages -/

/-- The database has a deque with these items, which its descriptor stands around. -/
structure HasDeque (db : Database) (key : Bytes) (d : KeyDescriptor) (q : List Bytes) : Prop where
  descriptor : db.getKeyDescriptor key = .ok d
  keyType_eq : d.keyType = .kDeque
  sz_eq : d.sz = q.length
  nonempty : q ≠ []
  last : d.endIndex.toNat = d.startIndex.toNat + 1 + q.length
  near : 2 ^ 62 ≤ d.startIndex.toNat + 1
  few : q.length < 2 ^ 62
  rows : ∀ start, d.startIndex.toNat + 1 ≤ start → start ≤ d.endIndex.toNat →
    since Prod.fst (db.under (fieldPrefix .kDeque key))
        (unsignedIntToBinaryString (UInt64.ofNat start)) =
      indexed start (q.drop (start - (d.startIndex.toNat + 1)))

/-- Where the iterator stands at the first item of a page, the loop reads the items. -/
theorem itemsLoop_indexed (locatorPrefix : Bytes) (rest : List (Bytes × Bytes)) {turns : Nat}
    {items : List Bytes} (h : turns ≤ items.length) (start : Nat) :
    itemsLoop locatorPrefix turns (UInt64.ofNat start)
        ((indexed start items).map (fun row => (locatorPrefix ++ row.1, row.2)) ++ rest) =
      .ok (items.take turns) := by
  induction turns generalizing start items with
  | zero => simp [itemsLoop]
  | succ turns ih =>
    cases items with
    | nil => cases h
    | cons item items =>
      have hnext : UInt64.ofNat start + 1 = UInt64.ofNat (start + 1) := (UInt64.ofNat_add start 1).symm
      rw [List.length_cons] at h
      rw [indexed, List.map_cons, List.cons_append, itemsLoop, hnext, ih (by omega)]
      simp [bind, Except.bind, pure, Except.pure]

section

variable {db : Database} {key : Bytes} {d : KeyDescriptor} {q : List Bytes}

theorem HasDeque.loop (h : db.HasDeque key d q) (start turns : Nat)
    (h1 : d.startIndex.toNat + 1 ≤ start) (h2 : turns ≠ 0 → start + turns ≤ d.endIndex.toNat) :
    itemsLoop (fieldPrefix .kDeque key) turns (UInt64.ofNat start)
        (db.seek (fieldPrefix .kDeque key ++ unsignedIntToBinaryString (UInt64.ofNat start))) =
      .ok ((q.drop (start - (d.startIndex.toNat + 1))).take turns) := by
  by_cases ht : turns = 0
  · subst ht
    simp [itemsLoop]
  have h2 := h2 ht
  have hlast := h.last
  have hsplit := List.takeWhile_append_dropWhile (p := fun row => fieldPrefix .kDeque key <+: row.1)
    (l := db.seek (fieldPrefix .kDeque key ++ unsignedIntToBinaryString (UInt64.ofNat start)))
  rw [← hsplit, takeWhile_seek, h.rows start h1 (by omega)]
  apply itemsLoop_indexed
  rw [List.length_drop]
  omega

/-- The index of the first item of a page. -/
def beginning (d : KeyDescriptor) (cursor : Bytes) (count : UInt64) : UInt64 :=
  if cursorMarker d cursor - count ≤ d.startIndex + 1 then d.startIndex + 1
  else cursorMarker d cursor - count

/-- The cursor of the page before. -/
def cursorBefore (d : KeyDescriptor) (cursor : Bytes) (count : UInt64) : Bytes :=
  if cursorMarker d cursor - count ≤ d.startIndex + 1 then []
  else unsignedIntToBinaryString (cursorMarker d cursor - count)

theorem cursorMarker_le (d : KeyDescriptor) (cursor : Bytes) :
    (cursorMarker d cursor).toNat ≤ d.endIndex.toNat := by
  unfold cursorMarker
  split_ifs with h1 h2
  · exact le_refl _
  · exact le_refl _
  · exact UInt64.le_iff_toNat_le.mp (UInt64.not_lt.mp h2)

theorem HasDeque.first_eq (h : db.HasDeque key d q) :
    (d.startIndex + 1).toNat = d.startIndex.toNat + 1 := by
  have hlast := h.last
  have hlt := d.endIndex.toNat_lt
  rw [UInt64.toNat_add]
  show (_ + 1) % 2 ^ 64 = _
  omega

theorem HasDeque.beginning_ge (h : db.HasDeque key d q) (cursor : Bytes) (count : UInt64) :
    d.startIndex.toNat + 1 ≤ (beginning d cursor count).toNat := by
  unfold beginning
  split_ifs with hb
  · rw [h.first_eq]
  · rw [UInt64.le_iff_toNat_le, h.first_eq] at hb
    omega

/-- Whatever the cursor is, no assertion fails: there is an item for each index of the page. -/
theorem HasDeque.page (h : db.HasDeque key d q) {cursor : Bytes}
    (hc : cursor.length = 0 ∨ cursor.length = 8) (count : UInt64) :
    db.dequeScanBack key cursor count = .ok (.OK, cursorBefore d cursor count,
      (q.drop ((beginning d cursor count).toNat - (d.startIndex.toNat + 1))).take
        ((cursorMarker d cursor).toNat - (beginning d cursor count).toNat)) := by
  have hle := cursorMarker_le d cursor
  have hge := h.beginning_ge cursor count
  have hsz : d.sz ≠ 0 := by
    have := List.length_pos_iff.mpr h.nonempty
    rw [h.sz_eq]
    omega
  have hloop := h.loop (beginning d cursor count).toNat
    ((cursorMarker d cursor).toNat - (beginning d cursor count).toNat) hge (by omega)
  rw [UInt64.ofNat_toNat] at hloop
  have hpair : (if cursorMarker d cursor - count ≤ d.startIndex + 1 then
      (([] : Bytes), d.startIndex + 1) else
      (unsignedIntToBinaryString (cursorMarker d cursor - count), cursorMarker d cursor - count)) =
      (cursorBefore d cursor count, beginning d cursor count) := by
    unfold cursorBefore beginning
    split_ifs <;> rfl
  obtain ⟨block, hl⟩ := FieldLocator.ofField_eq
    (show KeyType.kDeque.bearsFields = true from rfl) (FieldLocator.not_frees_of_ne
      (unsignedIntToBinaryString_ne_nil (beginning d cursor count)) .kDeque key)
  unfold dequeScanBack
  rw [h.descriptor]
  simp only [bind, Except.bind, pure, Except.pure, h.keyType_eq, hsz, hpair, ne_eq,
    not_true_eq_false, decide_false, Bool.and_false, Bool.false_eq_true, if_false,
    hl, FieldLocator.getPrefix, FieldLocator.toView, List.take_left]
  rw [if_neg (by omega)]
  rw [show appendEscapedString [KeyType.kDeque.toChar] key = fieldPrefix .kDeque key from rfl, hloop]

/-- What a request in its textual form is answered. -/
theorem HasDeque.scansBack_iff (h : db.HasDeque key d q) {cursor : Bytes}
    (hc : cursor.length = 0 ∨ cursor.length = 8) {count : Nat} (h1 : 1 ≤ count)
    (h2 : count < 2 ^ 63 - 1) (pages : List (List Bytes)) (next : Bytes) :
    db.ScansBack key cursor count pages next ↔
      next = cursorBefore d cursor (UInt64.ofNat count) ∧
      pages = [(q.drop ((beginning d cursor (UInt64.ofNat count)).toNat -
          (d.startIndex.toNat + 1))).take ((cursorMarker d cursor).toNat -
            (beginning d cursor (UInt64.ofNat count)).toNat)] := by
  have hword : word (count : Int) = count := by
    unfold word
    omega
  have hanswer : db.answerDequeScanBack
      [ascii "DEQUE-SCAN-BACK", key, markerOf cursor, ascii "COUNT", decimal count] =
      .ok (.inr (markerOf (cursorBefore d cursor (UInt64.ofNat count)),
        (q.drop ((beginning d cursor (UInt64.ofNat count)).toNat -
          (d.startIndex.toNat + 1))).take ((cursorMarker d cursor).toNat -
            (beginning d cursor (UInt64.ofNat count)).toNat))) := by
    rw [answerDequeScanBack, parseScanCommand_markerOf, parseScanOptions_count h1 h2]
    simp only [parseScanOptions, bind, Except.bind, pure, Except.pure, ne_eq, not_true_eq_false,
      if_false, hword, h.page hc, Status.ok, decide_true, if_true]
  unfold ScansBack
  rw [hanswer]
  constructor
  · rintro ⟨items, rfl, he⟩
    simp only [Except.ok.injEq, Sum.inr.injEq, Prod.mk.injEq] at he
    exact ⟨(markerOf_injective he.1).symm, by rw [he.2]⟩
  · rintro ⟨rfl, rfl⟩
    exact ⟨_, rfl, rfl⟩

theorem cursorMarker_index {i : Nat} (h : i ≤ d.endIndex.toNat) :
    cursorMarker d (unsignedIntToBinaryString (UInt64.ofNat i)) = UInt64.ofNat i := by
  have hlt := d.endIndex.toNat_lt
  have hnat : (UInt64.ofNat i).toNat = i := by
    rw [UInt64.toNat_ofNat', Nat.mod_eq_of_lt (by omega)]
  unfold cursorMarker
  rw [length_unsignedIntToBinaryString, if_neg (by omega),
    binaryStringToUnsignedInt_unsignedIntToBinaryString, if_neg]
  rw [UInt64.lt_iff_toNat_lt, hnat]
  omega

/-- From an index of the deque on the scan comes to its end, unless the count is larger than
the index: every later page begins behind the first 2^62 indices, and a page that is not the
last has less than 2^62 items. -/
theorem HasDeque.traversal (h : db.HasDeque key d q) {count : Nat} (h1 : 1 ≤ count)
    (h2 : count < 2 ^ 63 - 1) {i : Nat} {cursor : Bytes}
    (hc : cursor.length = 0 ∨ cursor.length = 8) (hm : cursorMarker d cursor = UInt64.ofNat i)
    (hlow : d.startIndex.toNat + 1 < i) (hhigh : i ≤ d.endIndex.toNat) (hcount : count ≤ i) :
    ∃ n pages, Traversal (db.ScansBack key) cursor (List.replicate n count) pages ∧
      pages.reverse.flatten = q.take (i - (d.startIndex.toNat + 1)) := by
  induction i using Nat.strongRecOn generalizing cursor with
  | ind i ih =>
    have hlt := d.endIndex.toNat_lt
    have hlast := h.last
    have hnear := h.near
    have hfew := h.few
    have hfirst := h.first_eq
    have hi : (UInt64.ofNat i).toNat = i := by
      rw [UInt64.toNat_ofNat', Nat.mod_eq_of_lt (by omega)]
    have hsub : UInt64.ofNat i - UInt64.ofNat count = UInt64.ofNat (i - count) :=
      (UInt64.ofNat_sub hcount).symm
    have hb : (UInt64.ofNat (i - count)).toNat = i - count := by
      rw [UInt64.toNat_ofNat', Nat.mod_eq_of_lt (by omega)]
    have hpage := h.scansBack_iff hc h1 h2
    by_cases hend : i - count ≤ d.startIndex.toNat + 1
    · -- the last page
      have hle : UInt64.ofNat (i - count) ≤ d.startIndex + 1 := by
        rw [UInt64.le_iff_toNat_le, hb, hfirst]
        exact hend
      have hbegin : beginning d cursor (UInt64.ofNat count) = d.startIndex + 1 := by
        unfold beginning
        rw [hm, hsub, if_pos hle]
      have hcur : cursorBefore d cursor (UInt64.ofNat count) = [] := by
        unfold cursorBefore
        rw [hm, hsub, if_pos hle]
      refine ⟨1, _, .last ((hpage _ _).mpr ⟨hcur.symm, rfl⟩), ?_⟩
      rw [hbegin, hfirst, hm, hi, Nat.sub_self, List.drop_zero]
      simp
    · have hgt : ¬ UInt64.ofNat (i - count) ≤ d.startIndex + 1 := by
        rw [UInt64.le_iff_toNat_le, hb, hfirst]
        exact hend
      have hbegin : beginning d cursor (UInt64.ofNat count) = UInt64.ofNat (i - count) := by
        unfold beginning
        rw [hm, hsub, if_neg hgt]
      have hcur : cursorBefore d cursor (UInt64.ofNat count) =
          unsignedIntToBinaryString (UInt64.ofNat (i - count)) := by
        unfold cursorBefore
        rw [hm, hsub, if_neg hgt]
      obtain ⟨n, pages, ht, hpages⟩ := ih (i - count) (by omega)
        (.inr (length_unsignedIntToBinaryString _)) (cursorMarker_index (by omega))
        (by omega) (by omega) (by omega)
      have hne : unsignedIntToBinaryString (UInt64.ofNat (i - count)) ≠ ⊥ := by
        intro he
        have := length_unsignedIntToBinaryString (UInt64.ofNat (i - count))
        rw [he] at this
        cases this
      refine ⟨n + 1, _, .more ((hpage _ _).mpr ⟨hcur.symm, rfl⟩) hne ht, ?_⟩
      rw [hbegin, hb, hm, hi, List.reverse_append, List.flatten_append, hpages,
        show i - (i - count) = count by omega]
      simp only [List.reverse_singleton, List.flatten_cons, List.flatten_nil, List.append_nil]
      rw [← List.take_add]
      congr 1
      omega

/-- The first page wraps around: it is empty, and so is every page after it. -/
theorem HasDeque.endless (h : db.HasDeque key d q) {count : Nat} (h1 : 1 ≤ count)
    (h2 : count < 2 ^ 63 - 1) (hcount : d.endIndex.toNat < count) (sizes : List Nat)
    (hsizes : ∀ size ∈ sizes, size = count) (pages : List (List Bytes)) :
    ¬ Traversal (db.ScansBack key) [] sizes pages := by
  have hlt := d.endIndex.toNat_lt
  have hlast := h.last
  have hfirst := h.first_eq
  have hwrap : (d.endIndex - UInt64.ofNat count).toNat = 2 ^ 64 - (count - d.endIndex.toNat) := by
    rw [UInt64.toNat_sub, UInt64.toNat_ofNat', Nat.mod_eq_of_lt (by omega)]
    omega
  have hgt : ¬ d.endIndex - UInt64.ofNat count ≤ d.startIndex + 1 := by
    rw [UInt64.le_iff_toNat_le, hwrap, hfirst]
    omega
  have hend : ∀ cursor, cursor = [] ∨
      cursor = unsignedIntToBinaryString (d.endIndex - UInt64.ofNat count) →
      cursorMarker d cursor = d.endIndex := by
    rintro cursor (rfl | rfl)
    · rfl
    · unfold cursorMarker
      rw [length_unsignedIntToBinaryString, if_neg (by omega),
        binaryStringToUnsignedInt_unsignedIntToBinaryString, if_pos]
      rw [UInt64.lt_iff_toNat_lt, hwrap]
      omega
  suffices hall : ∀ cursor, cursor = [] ∨
      cursor = unsignedIntToBinaryString (d.endIndex - UInt64.ofNat count) →
      ¬ Traversal (db.ScansBack key) cursor sizes pages from hall [] (.inl rfl)
  intro cursor hcursor ht
  have hlen : ∀ cursor : Bytes, cursor = [] ∨
      cursor = unsignedIntToBinaryString (d.endIndex - UInt64.ofNat count) →
      cursor.length = 0 ∨ cursor.length = 8 := by
    rintro cursor (rfl | rfl)
    · exact .inl rfl
    · exact .inr (length_unsignedIntToBinaryString _)
  have hnext : ∀ cursor, cursor = [] ∨
      cursor = unsignedIntToBinaryString (d.endIndex - UInt64.ofNat count) →
      cursorBefore d cursor (UInt64.ofNat count) =
        unsignedIntToBinaryString (d.endIndex - UInt64.ofNat count) := by
    intro cursor hcur
    unfold cursorBefore
    rw [hend cursor hcur, if_neg hgt]
  induction ht with
  | last hp =>
    rw [hsizes _ (List.mem_singleton_self _)] at hp
    have he := ((h.scansBack_iff (hlen _ hcursor) h1 h2 _ _).mp hp).1
    rw [hnext _ hcursor] at he
    have hl := length_unsignedIntToBinaryString (d.endIndex - UInt64.ofNat count)
    rw [← he] at hl
    cases hl
  | more hp _ _ ih =>
    rw [hsizes _ List.mem_cons_self] at hp
    have he := ((h.scansBack_iff (hlen _ hcursor) h1 h2 _ _).mp hp).1
    rw [hnext _ hcursor] at he
    exact ih (fun size hs => hsizes size (List.mem_cons_of_mem _ hs)) (.inr he)

end

/-- A deque that the store of a state machine has. -/
theorem Records.hasDeque {db : Database} {store : Store} {key : Bytes} {q : List Bytes}
    {pushes : Nat} (h : db.Records store) (ha : Apart key store)
    (hr : Represents store key q pushes) (hp : pushes < 2 ^ 62) (hlen : q.length ≤ pushes)
    (hq : q ≠ []) : ∃ d, db.HasDeque key d q := by
  rcases hr with ⟨rfl, -⟩ | ⟨-, bytes, d, hl, hd, ht, hz, he, hi, hlo, hhi⟩
  · exact absurd rfl hq
  have hlt := d.endIndex.toNat_lt
  refine ⟨d, ?_, ht, hz, hq, he, by omega, by omega, fun start h1 h2 => ?_⟩
  · rw [h.getKeyDescriptor_eq hl, hd]
  · exact h.since_items ha hi (by omega) h1 (by omega) (by omega)

/-- A scan of any page is answered, with any cursor and also where the deque is gone. -/
theorem dequeScanBack_ok {db : Database} {key : Bytes} {q : List Bytes}
    (h : db.getKeyDescriptor key = .ok {} ∨ ∃ d, db.HasDeque key d q) (cursor : Bytes)
    (count : UInt64) : ∃ result, db.dequeScanBack key cursor count = .ok result := by
  rcases h with h | ⟨d, h⟩
  · unfold dequeScanBack
    rw [h]
    exact ⟨_, rfl⟩
  · by_cases hc : cursor.length = 0 ∨ cursor.length = 8
    · exact ⟨_, h.page hc count⟩
    · have hsz : d.sz ≠ 0 := by
        have := List.length_pos_iff.mpr h.nonempty
        rw [h.sz_eq]
        omega
      rw [not_or] at hc
      unfold dequeScanBack
      rw [h.descriptor]
      simp only [bind, Except.bind, pure, Except.pure, h.keyType_eq, hsz, ne_eq, hc,
        not_false_eq_true, and_self, not_true_eq_false, decide_false, Bool.and_false,
        Bool.false_eq_true, if_false, if_true]
      exact ⟨_, rfl⟩

theorem Records.getKeyDescriptor_none {db : Database} {store : Store} {key : Bytes}
    (h : db.Records store) (hn : ∀ k ∈ store, k.owner ≠ some key) :
    db.getKeyDescriptor key = .ok {} := by
  have hg : db.get (33 :: key) = none := by
    by_contra hsome
    obtain ⟨value, hv⟩ := Option.ne_none_iff_exists'.mp hsome
    obtain ⟨k, hraw, hl⟩ := h.get_iff.mp hv
    have hk : k ∈ store := AList.lookup_isSome.mp (by rw [hl]; rfl)
    have hmarks : ascii "!" = [33] ∧ ascii "@" = [64] ∧ ascii "~" = [126] := by decide
    have hclock : ascii "__clock" = 95 :: ascii "_clock" := by decide
    have happlied : ascii "__last-applied" = 95 :: ascii "_last-applied" := by decide
    cases k with
    | descriptor key' =>
      rw [StoreKey.toRaw, hmarks.1] at hraw
      obtain rfl : key' = key := (List.cons.inj hraw).2
      exact hn _ hk rfl
    | field type key' name' => cases type <;> simp [StoreKey.toRaw, appendEscapedString,
        KeyType.toChar] at hraw
    | _ => simp [StoreKey.toRaw, hmarks, hclock, happlied, localityPrefix, appendEscapedString,
        KeyType.toChar] at hraw
  unfold Database.getKeyDescriptor
  rw [hg]

end Database

/-! ## Scans of a deque -/

theorem aloof_apart (key : Bytes) : Aloof fun s => Database.Apart key s.store where
  cache _ _ h := h
  clock s value h key' name hne hm := by
    refine h key' name hne ?_
    rcases AList.mem_insert _ |>.mp hm with he | hm
    · cases he
    · exact hm
  release key' s _ _ :=
    ⟨fun s k _ _ h key' name hne hm => h key' name hne (AList.mem_erase.mp hm).2,
      fun s h key' name hne hm => h key' name hne (AList.mem_erase.mp hm).2⟩

theorem tolerates_apart (key : Bytes) (type : KeyType) :
    Tolerates (fun s => Database.Apart key s.store) key type where
  put s k value ho _ h key' name hne hm := by
    refine h key' name hne ?_
    rcases AList.mem_insert _ |>.mp hm with rfl | hm
    · exact absurd (Option.some.inj ho) hne
    · exact hm
  del s k _ _ h key' name hne hm := h key' name hne (AList.mem_erase.mp hm).2
  describe s d bytes _ _ h key' name hne hm := by
    refine h key' name hne ?_
    rcases AList.mem_insert _ |>.mp hm with he | hm
    · cases he
    · exact hm
  forget s h key' name hne hm := h key' name hne (AList.mem_erase.mp hm).2
  revise s revision h := h

theorem DequeCommand.keeps_apart (key : Bytes) (c : DequeCommand) :
    Keeps (fun s => Database.Apart key s.store) (fun _ => True) (c.run key) := by
  have hg : Gated (fun s => Database.Apart key s.store) key .kDeque :=
    fun _ _ _ => tolerates_apart key _
  have hweak : ∀ {α : Type} {run : StagingM α},
      Leaves (fun s => Database.Apart key s.store) run →
      Keeps (fun s => Database.Apart key s.store) (fun _ => True) run :=
    fun h => h.weaken fun _ _ => trivial
  cases c with
  | pushFront item items => exact hweak (leaves_reply (leaves_dequePush hg _ _))
  | pushBack item items => exact hweak (leaves_reply (leaves_dequePush hg _ _))
  | popFront => exact hweak (leaves_reply (leaves_dequePop hg _))
  | popBack => exact hweak (leaves_reply (leaves_dequePop hg _))
  | trimFront maxToKeep => exact hweak (leaves_reply (leaves_dequeTrimFront hg _))
  | clear => exact hweak (leaves_reply (leaves_dequeTrimFront hg _))
  | len =>
    refine hweak (leaves_reply ?_)
    unfold dequeLen sizeOfType
    exact keeps_bind (leaves_getKeyDescriptor key) fun d => by split <;> exact keeps_pure _
  | del =>
    refine keeps_bind (keeps_delKeys (aloof_apart key) fun key' hk type => ?_) fun _ => keeps_pure _
    rw [List.mem_singleton.mp hk]
    exact tolerates_apart key type

section

variable (doubles : Doubles) (others : StagingArea → RedisRequest → Except Fault Bytes)

/-- The commands on one deque leave the other deques apart. -/
theorem applyBatches_apart {key : Bytes} {mode : Mode} {m : Machine} (hm : mode.Suits m)
    (hn : ∀ k ∈ m.store, k.owner ≠ some key)
    (hother : ∀ key' name, .field .kDeque key' name ∈ m.store → name.head? ≠ some hash)
    {txs : List Transaction} {batches : List (List DequeCommand)}
    (hs : List.Forall₂ (SpellsBatch fun request c => c.Spells key request) txs batches)
    (hp : (batches.flatten.map DequeCommand.pushes).sum < 2 ^ 62) :
    ∃ m', applyBatches doubles (dispatchRead others) mode m txs =
        .ok ((answerBatches DequeCommand.answer txs batches []).1, m') ∧
      ∀ db : Database, db.Records m'.store →
        ((answerBatches DequeCommand.answer txs batches []).2 = [] →
          db.getKeyDescriptor key = .ok {}) ∧
        ((answerBatches DequeCommand.answer txs batches []).2 ≠ [] →
          ∃ d, db.HasDeque key d (answerBatches DequeCommand.answer txs batches []).2) := by
  obtain ⟨m', hrun, hrep, hlen, hapart⟩ := applyBatches_deque doubles others hm hn hs hp
    (I := fun s => Database.Apart key s.store) (fun key' name _ hk => hother key' name hk)
    (DequeCommand.keeps_apart key) (fun s s' h hsame key' name hne hk => by
      refine h key' name hne ?_
      rw [← AList.lookup_isSome, hsame _ (by exact nofun), AList.lookup_isSome] at hk
      exact hk)
  refine ⟨m', hrun, fun db hdb => ⟨fun hq => ?_, hdb.hasDeque hapart hrep hp hlen⟩⟩
  rcases hrep with ⟨-, hn'⟩ | ⟨hne, -⟩
  · exact hdb.getKeyDescriptor_none hn'
  · exact absurd hq hne

/-- Whatever is pushed, popped and trimmed, no scan of the deque fails, with an old cursor or
with none. The pages that follow each other from the back to the front have each item once and
in order, if and only if the count is not larger than the index just behind the last item. -/
theorem a_backward_scan_reads_all_items_unless_its_count_wraps (key : Bytes) (mode : Mode)
    (m : Machine) (hm : mode.Suits m) (hn : ∀ k ∈ m.store, k.owner ≠ some key)
    (hother : ∀ key' name, .field .kDeque key' name ∈ m.store → name.head? ≠ some hash)
    (txs : List Transaction) (batches : List (List DequeCommand))
    (hs : List.Forall₂ (SpellsBatch fun request c => c.Spells key request) txs batches)
    (hp : (batches.flatten.map DequeCommand.pushes).sum < 2 ^ 62) :
    ∃ m', applyBatches doubles (dispatchRead others) mode m txs =
        .ok ((answerBatches DequeCommand.answer txs batches []).1, m') ∧
      ∀ db : Database, db.Records m'.store →
        (∀ cursor count, ∃ result, db.dequeScanBack key cursor count = .ok result) ∧
        ((answerBatches DequeCommand.answer txs batches []).2 ≠ [] →
          ∃ d, db.getKeyDescriptor key = .ok d ∧ ∀ count, 1 ≤ count → count < 2 ^ 63 - 1 →
            ((∃ n pages, Traversal (db.ScansBack key) [] (List.replicate n count) pages ∧
              pages.reverse.flatten = (answerBatches DequeCommand.answer txs batches []).2) ↔
              count ≤ d.endIndex.toNat)) := by
  obtain ⟨m', hrun, hdeque⟩ := applyBatches_apart doubles others hm hn hother hs hp
  refine ⟨m', hrun, fun db hdb => ⟨fun cursor count => ?_, fun hq => ?_⟩⟩
  · apply Database.dequeScanBack_ok
    by_cases hq : (answerBatches DequeCommand.answer txs batches []).2 = []
    · exact .inl ((hdeque db hdb).1 hq)
    · exact .inr ((hdeque db hdb).2 hq)
  · obtain ⟨d, hd⟩ := (hdeque db hdb).2 hq
    have hlast := hd.last
    have hlt := d.endIndex.toNat_lt
    have hpos := List.length_pos_iff.mpr hq
    refine ⟨d, hd.descriptor, fun count h1 h2 => ⟨?_, fun hcount => ?_⟩⟩
    · rintro ⟨n, pages, ht, -⟩
      by_contra hgt
      exact hd.endless h1 h2 (not_le.mp hgt) _ (fun size hs => List.eq_of_mem_replicate hs) _ ht
    · have hmarker : Database.cursorMarker d [] = UInt64.ofNat d.endIndex.toNat :=
        UInt64.ofNat_toNat.symm
      have ht := hd.traversal h1 h2 (.inl rfl) hmarker (by omega) le_rfl hcount
      rwa [List.take_of_length_le (by omega)] at ht

end

/-- Four items are pushed at the front, and three are popped at the back. -/
def frontHeavy : List Transaction :=
  [⟨[[ascii "DEQUE_PUSH_FRONT", ascii "q", ascii "a", ascii "b", ascii "c", ascii "d"]], true, true,
      by decide +kernel, by decide +kernel⟩,
    ⟨[[ascii "DEQUE_POP_BACK", ascii "q"], [ascii "DEQUE_POP_BACK", ascii "q"],
      [ascii "DEQUE_POP_BACK", ascii "q"]], true, false, by decide +kernel, by decide +kernel⟩]

def frontHeavyDescriptor : KeyDescriptor :=
  { keyType := .kDeque, sz := 1, startIndex := 9223372036854775803, endIndex := 9223372036854775805 }

/-- What is stored then, in the order of the keys. -/
def frontHeavyRecords : List (StoreKey × Bytes) :=
  [(.descriptor (ascii "q"), [100, 0, 0, 0, 0, 0, 0, 0, 1, 127, 255, 255, 255, 255, 255, 255, 251,
      127, 255, 255, 255, 255, 255, 255, 253]),
    (.clock, unsignedIntToBinaryString 0), (.lastApplied, bigInt 0),
    (itemKey (ascii "q") 9223372036854775804, ascii "d")]

theorem frontHeavy_ends : ∃ replies m,
    applyBatches wholeDoubles (dispatchRead readsNothing) .standalone freshMachine frontHeavy =
      .ok (replies, m) ∧ sortedEntries m.store = frontHeavyRecords ∧
      m.store.lookup (.descriptor (ascii "q")) = frontHeavyRecords.head?.map Prod.snd := by
  have hrun : (applyBatches wholeDoubles (dispatchRead readsNothing) .standalone freshMachine
      frontHeavy).map (fun r => (decide (frontHeavyRecords.Perm
        (r.2.store.entries.map fun e => (e.1, e.2))),
        r.2.store.lookup (.descriptor (ascii "q")))) =
      .ok (true, frontHeavyRecords.head?.map Prod.snd) := by decide +kernel
  obtain ⟨⟨replies, m⟩, h, hshows⟩ := exists_of_map_ok hrun
  obtain ⟨hperm, hl⟩ := Prod.mk.inj hshows
  exact ⟨replies, m, h, sortedEntries_eq (by decide +kernel) (of_decide_eq_true hperm), hl⟩

theorem frontHeavy_descriptor {m : Machine} {replies : List Bytes}
    (h : applyBatches wholeDoubles (dispatchRead readsNothing) .standalone freshMachine frontHeavy =
      .ok (replies, m)) {db : Database} (hdb : db.Records m.store) :
    db.getKeyDescriptor (ascii "q") = .ok frontHeavyDescriptor := by
  obtain ⟨replies', m', h', -, hl⟩ := frontHeavy_ends
  obtain ⟨-, rfl⟩ := Prod.mk.inj (Except.ok.inj (h.symm.trans h'))
  rw [hdb.getKeyDescriptor_eq hl]
  decide +kernel

theorem frontHeavy_spells : List.Forall₂
    (SpellsBatch fun request c => DequeCommand.Spells (ascii "q") request c) frontHeavy
    [[.pushFront (ascii "a") [ascii "b", ascii "c", ascii "d"]],
      [.popBack, .popBack, .popBack]] := by
  obtain ⟨hpush, hpop⟩ :
      DequeCommand.Spells (ascii "q") [ascii "DEQUE_PUSH_FRONT", ascii "q", ascii "a", ascii "b",
        ascii "c", ascii "d"] (.pushFront (ascii "a") [ascii "b", ascii "c", ascii "d"]) ∧
      DequeCommand.Spells (ascii "q") [ascii "DEQUE_POP_BACK", ascii "q"] .popBack := by
    decide +kernel
  exact .cons ⟨List.cons_ne_nil _ _, .cons hpush .nil⟩
    (.cons ⟨List.cons_ne_nil _ _, .cons hpop (.cons hpop (.cons hpop .nil))⟩ .nil)

theorem no_field_freshMachine {type : KeyType} {key name : Bytes} :
    .field type key name ∉ freshMachine.store := by
  intro hk
  rcases AList.mem_insert _ |>.mp hk with he | hk
  · cases he
  rcases AList.mem_insert _ |>.mp hk with he | hk
  · cases he
  · exact AList.notMem_empty _ hk

/-- The item that is left is read with the largest count that the index allows. -/
theorem the_last_item_of_four_is_scanned :
    ∃ replies m, applyBatches wholeDoubles (dispatchRead readsNothing) .standalone freshMachine
        frontHeavy = .ok (replies, m) ∧
      ∀ db : Database, db.Records m.store →
        ∃ n pages, Traversal (db.ScansBack (ascii "q")) [] (List.replicate n (2 ^ 63 - 3)) pages ∧
          pages.reverse.flatten = [ascii "d"] := by
  obtain ⟨m, hrun, hall⟩ := a_backward_scan_reads_all_items_unless_its_count_wraps wholeDoubles
    readsNothing (ascii "q") .standalone freshMachine rfl (by decide +kernel)
    (fun key' name hk => absurd hk no_field_freshMachine)
    frontHeavy _ frontHeavy_spells (by decide +kernel)
  refine ⟨_, m, hrun, fun db hdb => ?_⟩
  obtain ⟨d, hd, hcounts⟩ := (hall db hdb).2 (by decide +kernel)
  obtain rfl := Except.ok.inj ((frontHeavy_descriptor hrun hdb).symm.trans hd)
  obtain ⟨n, pages, ht, hpages⟩ := (hcounts (2 ^ 63 - 3) (by decide) (by decide)).mpr (by decide)
  exact ⟨n, pages, ht, by rw [hpages]; decide +kernel⟩

/-- The database of that state. -/
def frontHeavyDatabase : Database :=
  ⟨frontHeavyRecords.map fun e => (e.1.toRaw, e.2), by decide +kernel⟩

/-- With the largest count that is read the scan of one item never ends. -/
theorem a_scan_of_one_item_never_ends :
    ∃ replies m, applyBatches wholeDoubles (dispatchRead readsNothing) .standalone freshMachine
        frontHeavy = .ok (replies, m) ∧ frontHeavyDatabase.Records m.store ∧
      ∀ n pages, ¬ Traversal (frontHeavyDatabase.ScansBack (ascii "q")) []
        (List.replicate n (2 ^ 63 - 2)) pages := by
  obtain ⟨replies, m, hrun, hrecords, -⟩ := frontHeavy_ends
  have hdb : frontHeavyDatabase.Records m.store := by
    unfold Database.Records rawRecords
    rw [hrecords]
    rfl
  refine ⟨replies, m, hrun, hdb, fun n pages ht => ?_⟩
  have hdeque : frontHeavyDatabase.HasDeque (ascii "q") frontHeavyDescriptor [ascii "d"] := by
    obtain ⟨m', hrun', hhas⟩ := applyBatches_apart wholeDoubles readsNothing
      (show Mode.standalone.Suits freshMachine from rfl) (by decide +kernel)
      (fun key' name hk => absurd hk no_field_freshMachine) frontHeavy_spells (by decide +kernel)
    rw [hrun] at hrun'
    obtain ⟨-, rfl⟩ := Prod.mk.inj (Except.ok.inj hrun')
    have hq : (answerBatches DequeCommand.answer frontHeavy
        [[.pushFront (ascii "a") [ascii "b", ascii "c", ascii "d"]],
          [.popBack, .popBack, .popBack]] []).2 = [ascii "d"] := by decide +kernel
    rw [hq] at hhas
    obtain ⟨d, hd⟩ := (hhas _ hdb).2 (by decide)
    obtain rfl := Except.ok.inj ((frontHeavy_descriptor hrun hdb).symm.trans hd.descriptor)
    exact hd
  exact hdeque.endless (by decide) (by decide) (by decide) _
    (fun size hs => List.eq_of_mem_replicate hs) _ ht

end quarkdb
