-- What the order of the bytes means for iterators: numbers stand in their own order, the items
-- of a deque in the order of their indices, and expiration events in that of their deadlines.
import QuarkDB.DequeScans
import QuarkDB.KeyDescriptors
import QuarkDB.Leases

namespace quarkdb

open Endian StateMachine ByteOrder Paging

/-- Names that begin with as many bytes are compared by these first. -/
theorem ByteOrder.append_lt_append_iff {p q s t : Bytes} (h : p.length = q.length) :
    p ++ s < q ++ t ↔ p < q ∨ p = q ∧ s < t := by
  induction p generalizing q with
  | nil =>
    obtain rfl := List.length_eq_zero_iff.mp h.symm
    simp
  | cons c p ih =>
    cases q with
    | nil => cases h
    | cons d q =>
      rw [List.cons_append, List.cons_append, List.cons_lt_cons_iff, List.cons_lt_cons_iff,
        ih (Nat.succ.inj h), List.cons.injEq]
      tauto

/-! ## Numbers -/

theorem unsignedIntToBinaryString_lt_iff {m n : UInt64} :
    unsignedIntToBinaryString m < unsignedIntToBinaryString n ↔ m < n := by
  have h := Database.index_lt_iff m.toNat_lt n.toNat_lt
  rwa [UInt64.ofNat_toNat, UInt64.ofNat_toNat, ← UInt64.lt_iff_toNat_lt] at h

theorem unsignedIntToBinaryString_inj {m n : UInt64} :
    unsignedIntToBinaryString m = unsignedIntToBinaryString n ↔ m = n := by
  constructor
  · intro h
    rw [← binaryStringToUnsignedInt_unsignedIntToBinaryString m, h,
      binaryStringToUnsignedInt_unsignedIntToBinaryString]
  · exact congrArg _

theorem intToBinaryString_inj {x y : Int} (hx : InWord x) (hy : InWord y)
    (h : intToBinaryString x = intToBinaryString y) : x = y := by
  rw [← ofBigInt_bigInt hx.1 hx.2, ← ofBigInt_bigInt hy.1 hy.2]
  exact congrArg ofBigInt h

/-- Names that begin with a number stand in the order of the numbers, and those that begin
with the same one in the order of what follows. -/
theorem numbered_lt_iff {m n : UInt64} {s t : Bytes} :
    unsignedIntToBinaryString m ++ s < unsignedIntToBinaryString n ++ t ↔
      m < n ∨ m = n ∧ s < t := by
  have hlen := length_unsignedIntToBinaryString
  rw [append_lt_append_iff (by rw [hlen, hlen]), unsignedIntToBinaryString_lt_iff,
    unsignedIntToBinaryString_inj]

/-! ## Deques -/

/-- An iterator meets the items of a deque in the order of their indices, whatever else is in the
database. -/
theorem Database.pairwise_items (db : Database) (key : Bytes) :
    db.rows.Pairwise fun row row' => ∀ (i j : UInt64) (l l' : FieldLocator),
      FieldLocator.ofField .kDeque key (unsignedIntToBinaryString i) = .ok l →
      FieldLocator.ofField .kDeque key (unsignedIntToBinaryString j) = .ok l' →
      row.1 = l.toView → row'.1 = l'.toView → i < j := by
  refine db.sorted.imp fun {row row'} hlt i j l l' hl hl' hrow hrow' => ?_
  rw [hrow, hrow', FieldLocator.toView, FieldLocator.toView, (FieldLocator.ofField_ok rfl hl).2.2,
    (FieldLocator.ofField_ok rfl hl').2.2] at hlt
  exact unsignedIntToBinaryString_lt_iff.mp ((append_lt_append _).mp hlt)

/-! ## Expiration events -/

/-- `ExpirationEventIterator`, with the rows that its iterator has before it. -/
structure ExpirationEventIterator where
  lastDeadline : UInt64 := 0
  iter : List (Bytes × Bytes)

namespace ExpirationEventIterator

def kExpirationEvent : UInt8 := 64

def valid (it : ExpirationEventIterator) : Except Fault Bool :=
  match it.iter with
  | [] => return false
  | row :: _ => return (← charAt row.1 0) = kExpirationEvent

def getDeadline (it : ExpirationEventIterator) : Except Fault UInt64 :=
  match it.iter with
  | [] => .error .outOfBounds
  | row :: _ =>
    if row.1.length < 9 then .error .outOfBounds
    else .ok (binaryStringToUnsignedInt ((row.1.drop 1).take 8))

def getRedisKey (it : ExpirationEventIterator) : Except Fault Bytes :=
  match it.iter with
  | [] => .error .outOfBounds
  | row :: _ => if row.1.length < 9 then .error .outOfBounds else .ok (row.1.drop 9)

def assertDeadlineSanity (it : ExpirationEventIterator) :
    Except Fault ExpirationEventIterator := do
  if ← it.valid then
    let deadline ← it.getDeadline
    qdbAssert (it.lastDeadline ≤ deadline) "lastDeadline <= deadline"
    return { it with lastDeadline := deadline }
  else return it

/-- The constructor. -/
def construct (db : Database) : Except Fault ExpirationEventIterator :=
  assertDeadlineSanity { iter := db.seek [kExpirationEvent] }

def next (it : ExpirationEventIterator) : Except Fault ExpirationEventIterator :=
  assertDeadlineSanity { it with iter := it.iter.tail }

/-- The loop of `lease_get_pending_expiration_events` and of `loadExpirationCache`, for so many
turns at most: the events that are met. -/
def collect : Nat → ExpirationEventIterator → Except Fault (List (UInt64 × Bytes))
  | 0, _ => .error (.thrown "out of fuel")
  | fuel + 1, it => do
    if ← it.valid then
      let event := (← it.getDeadline, ← it.getRedisKey)
      return event :: (← collect fuel (← it.next))
    else return []

variable {last deadline : UInt64} {key value : Bytes} {rows rest : List (Bytes × Bytes)}

/-- The key of an expiration event. -/
def eventKey (e : UInt64 × Bytes) : Bytes :=
  kExpirationEvent :: (unsignedIntToBinaryString e.1 ++ e.2)

/-- An event, with the value that the row has beside it. -/
def rowOf (e : (UInt64 × Bytes) × Bytes) : Bytes × Bytes := (eventKey e.1, e.2)

/-- The iterator stands behind the events, or on a key that is none. -/
def Ended (rows : List (Bytes × Bytes)) : Prop :=
  ∀ row ∈ rows.head?, ∃ c rest, row.1 = c :: rest ∧ c ≠ kExpirationEvent

theorem valid_event (e : UInt64 × Bytes) :
    valid ⟨last, (eventKey e, value) :: rows⟩ = .ok true := rfl

theorem valid_ended (h : Ended rows) : valid ⟨last, rows⟩ = .ok false := by
  cases rows with
  | nil => rfl
  | cons row rows =>
    obtain ⟨c, rest, hrow, hc⟩ := h row rfl
    unfold valid
    dsimp only
    rw [hrow]
    exact congrArg Except.ok (decide_eq_false hc)

theorem length_eventKey (e : UInt64 × Bytes) : (eventKey e).length = 9 + e.2.length := by
  unfold eventKey
  rw [List.length_cons, List.length_append, length_unsignedIntToBinaryString]
  omega

theorem getDeadline_event (e : UInt64 × Bytes) :
    getDeadline ⟨last, (eventKey e, value) :: rows⟩ = .ok e.1 := by
  have hlen := length_unsignedIntToBinaryString e.1
  have htake : ((eventKey e).drop 1).take 8 = unsignedIntToBinaryString e.1 := by
    rw [eventKey, List.drop_one, List.tail_cons, ← hlen, List.take_left]
  unfold getDeadline
  dsimp only
  rw [if_neg (by rw [length_eventKey]; omega), htake,
    binaryStringToUnsignedInt_unsignedIntToBinaryString]

theorem getRedisKey_event (e : UInt64 × Bytes) :
    getRedisKey ⟨last, (eventKey e, value) :: rows⟩ = .ok e.2 := by
  have hlen := length_unsignedIntToBinaryString e.1
  have hdrop : (eventKey e).drop 9 = e.2 := by
    rw [eventKey, List.drop_succ_cons, ← hlen, List.drop_left]
  unfold getRedisKey
  dsimp only
  rw [if_neg (by rw [length_eventKey]; omega), hdrop]

theorem assertDeadlineSanity_event {e : UInt64 × Bytes} (h : last ≤ e.1) :
    assertDeadlineSanity ⟨last, (eventKey e, value) :: rows⟩ =
      .ok ⟨e.1, (eventKey e, value) :: rows⟩ := by
  unfold assertDeadlineSanity
  rw [valid_event, ok_bind, if_pos rfl, getDeadline_event, ok_bind,
    decide_eq_true h]
  exact ok_bind _ _

theorem assertDeadlineSanity_ended (h : Ended rows) :
    assertDeadlineSanity ⟨last, rows⟩ = .ok ⟨last, rows⟩ := by
  unfold assertDeadlineSanity
  rw [valid_ended h, ok_bind, if_neg Bool.false_ne_true]
  rfl

/-- Events in the order of their deadlines are met one after the other, and no assertion fails. -/
theorem collect_events (events : List ((UInt64 × Bytes) × Bytes)) {turns : Nat}
    (hturns : events.length < turns) (hs : events.Pairwise fun e e' => e.1.1 ≤ e'.1.1)
    (hlast : ∀ e ∈ events, last ≤ e.1.1) (hended : Ended rest) :
    (assertDeadlineSanity ⟨last, events.map rowOf ++ rest⟩ >>= collect turns) =
      .ok (events.map Prod.fst) := by
  induction events generalizing last turns with
  | nil =>
    obtain ⟨turns, rfl⟩ := Nat.exists_eq_succ_of_ne_zero (by omega : turns ≠ 0)
    rw [List.map_nil, List.nil_append, assertDeadlineSanity_ended hended, ok_bind]
    unfold collect
    rw [valid_ended hended]
    rfl
  | cons e events ih =>
    obtain ⟨turns, rfl⟩ := Nat.exists_eq_succ_of_ne_zero (by omega : turns ≠ 0)
    obtain ⟨hle, hs⟩ := List.pairwise_cons.mp hs
    have hrest := ih (Nat.lt_of_succ_lt_succ hturns) hs hle
    rw [List.map_cons, List.cons_append, rowOf, assertDeadlineSanity_event (hlast e (by simp)),
      ok_bind]
    unfold collect
    rw [valid_event, ok_bind, if_pos rfl, getDeadline_event, ok_bind, getRedisKey_event, ok_bind]
    unfold next
    dsimp only [List.tail_cons]
    rw [← bind_assoc, hrest]
    rfl

/-- A key that begins with '@' is that of an event. -/
theorem toRaw_event {k : StoreKey} {name : Bytes} (h : k.toRaw = kExpirationEvent :: name) :
    ∃ e : UInt64 × Bytes, k = .expirationEvent e.1 e.2 ∧ name = unsignedIntToBinaryString e.1 ++ e.2 := by
  have hmarks : ascii "!" = [33] ∧ ascii "@" = [64] ∧ ascii "~" = [126] := by decide
  have hclock : ascii "__clock" = 95 :: ascii "_clock" := by decide
  have happlied : ascii "__last-applied" = 95 :: ascii "_last-applied" := by decide
  cases k with
  | expirationEvent deadline key =>
    refine ⟨(deadline, key), rfl, ?_⟩
    rw [StoreKey.toRaw, hmarks.2.1, List.singleton_append] at h
    exact (List.cons.inj h).2.symm
  | field type key name =>
    cases type <;> simp [StoreKey.toRaw, appendEscapedString, KeyType.toChar, kExpirationEvent] at h
  | _ => simp [StoreKey.toRaw, hmarks, hclock, happlied, localityPrefix, appendEscapedString,
      KeyType.toChar, kExpirationEvent] at h

theorem eventLe_iff {e e' : UInt64 × Bytes} :
    eventLe e e' = true ↔ e.1 < e'.1 ∨ e.1 = e'.1 ∧ e.2 ≤ e'.2 := by
  unfold eventLe
  rw [Bool.or_eq_true, Bool.and_eq_true, beq_iff_eq, decide_eq_true_iff, bytesLe_iff]

theorem eventKey_lt_iff {e e' : UInt64 × Bytes} :
    eventKey e < eventKey e' ↔ e.1 < e'.1 ∨ e.1 = e'.1 ∧ e.2 < e'.2 := by
  rw [eventKey, eventKey, List.cons_lt_cons_iff, numbered_lt_iff]
  simp

theorem eventKey_inj {e e' : UInt64 × Bytes} : eventKey e = eventKey e' ↔ e = e' := by
  constructor
  · intro h
    have hlen := length_unsignedIntToBinaryString
    have happend := (List.cons.inj h).2
    obtain ⟨hd, hk⟩ := List.append_inj happend (by rw [hlen, hlen])
    exact Prod.ext (unsignedIntToBinaryString_inj.mp hd) hk
  · exact congrArg _

/-- Events stand in the order of their keys. -/
theorem eventLe_iff_eventKey {e e' : UInt64 × Bytes} :
    eventLe e e' = true ↔ eventKey e ≤ eventKey e' := by
  rw [eventLe_iff, le_iff_lt_or_eq, le_iff_lt_or_eq, eventKey_lt_iff, eventKey_inj, Prod.ext_iff]
  tauto

theorem sorted_expirationEvents (store : Store) :
    (expirationEvents store).Pairwise fun e e' => eventKey e ≤ eventKey e' := by
  have htrans (a b c : UInt64 × Bytes) (hab : eventLe a b = true) (hbc : eventLe b c = true) :
      eventLe a c = true :=
    eventLe_iff_eventKey.mpr
      (le_trans (eventLe_iff_eventKey.mp hab) (eventLe_iff_eventKey.mp hbc))
  have htotal (a b : UInt64 × Bytes) : (eventLe a b || eventLe b a) = true := by
    rw [Bool.or_eq_true, eventLe_iff_eventKey, eventLe_iff_eventKey]
    exact le_total _ _
  exact (List.pairwise_mergeSort htrans htotal _).imp eventLe_iff_eventKey.mp

/-- A row with the prefix of events, read as an event. -/
def eventOfRow (row : Bytes × Bytes) : (UInt64 × Bytes) × Bytes :=
  ((binaryStringToUnsignedInt (row.1.take 8), row.1.drop 8), row.2)

theorem rowOf_eventOfRow {db : Database} {store : Store} (h : db.Records store)
    {row : Bytes × Bytes} (hm : row ∈ db.under [kExpirationEvent]) :
    rowOf (eventOfRow row) = (kExpirationEvent :: row.1, row.2) ∧
      .expirationEvent (eventOfRow row).1.1 (eventOfRow row).1.2 ∈ store := by
  obtain ⟨name, value⟩ := row
  obtain ⟨k, hraw, hl⟩ := h.get_iff.mp (Database.mem_under_iff.mp hm)
  obtain ⟨e, rfl, rfl⟩ := toRaw_event hraw
  have hlen := length_unsignedIntToBinaryString e.1
  have he : eventOfRow (unsignedIntToBinaryString e.1 ++ e.2, value) = (e, value) := by
    unfold eventOfRow
    dsimp only
    rw [← hlen, List.take_left, List.drop_left, binaryStringToUnsignedInt_unsignedIntToBinaryString]
  rw [he]
  refine ⟨rfl, ?_⟩
  rw [← AList.lookup_isSome, hl]
  rfl

/-- The events of the store, in their order. -/
theorem under_events {db : Database} {store : Store} (h : db.Records store) :
    (db.under [kExpirationEvent]).map (fun row => (eventOfRow row).1) = expirationEvents store := by
  have hsorted : ((db.under [kExpirationEvent]).map fun row => (eventOfRow row).1).Pairwise
      fun e e' => eventKey e < eventKey e' := by
    rw [List.pairwise_map]
    refine (db.sorted_under [kExpirationEvent]).imp_of_mem fun {row row'} hm hm' hlt => ?_
    have hkey : eventKey (eventOfRow row).1 = kExpirationEvent :: row.1 :=
      congrArg Prod.fst (rowOf_eventOfRow h hm).1
    have hkey' : eventKey (eventOfRow row').1 = kExpirationEvent :: row'.1 :=
      congrArg Prod.fst (rowOf_eventOfRow h hm').1
    rw [hkey, hkey']
    exact (append_lt_append [kExpirationEvent]).mpr hlt
  have hmem : ∀ e : UInt64 × Bytes, e ∈ (db.under [kExpirationEvent]).map
      (fun row => (eventOfRow row).1) ↔ e ∈ expirationEvents store := by
    intro e
    rw [List.mem_map]
    constructor
    · rintro ⟨row, hm, rfl⟩
      exact mem_expirationEvents.mpr (rowOf_eventOfRow h hm).2
    · intro he
      have hin : StoreKey.expirationEvent e.1 e.2 ∈ store := mem_expirationEvents.mp he
      obtain ⟨value, hl⟩ := Option.isSome_iff_exists.mp (AList.lookup_isSome.mpr hin)
      have hm : (unsignedIntToBinaryString e.1 ++ e.2, value) ∈ db.under [kExpirationEvent] :=
        Database.mem_under_iff.mpr (h.get_iff.mpr ⟨_, rfl, hl⟩)
      have hkey : eventKey (eventOfRow (unsignedIntToBinaryString e.1 ++ e.2, value)).1 =
          eventKey e := congrArg Prod.fst (rowOf_eventOfRow h hm).1
      exact ⟨_, hm, eventKey_inj.mp hkey⟩
  have hnodup := hsorted.imp fun {e e'} (hlt : eventKey e < eventKey e') (he : e = e') =>
    lt_irrefl _ (he ▸ hlt)
  have hperm := (List.perm_ext_iff_of_nodup hnodup (nodup_expirationEvents store)).mpr hmem
  exact hperm.eq_of_pairwise (fun e e' _ _ hle hle' => eventKey_inj.mp (le_antisymm hle hle'))
    (hsorted.imp le_of_lt) (sorted_expirationEvents store)

/-- What the iterator goes over: the events of the store, and whatever comes behind them. -/
theorem seek_events {db : Database} {store : Store} (h : db.Records store) :
    ∃ rest, db.seek [kExpirationEvent] =
      ((db.under [kExpirationEvent]).map eventOfRow).map rowOf ++ rest ∧ Ended rest := by
  have hrows : (db.seek [kExpirationEvent]).takeWhile (fun row => [kExpirationEvent] <+: row.1) =
      ((db.under [kExpirationEvent]).map eventOfRow).map rowOf := by
    have htake := db.takeWhile_seek [kExpirationEvent] []
    have hall : since Prod.fst (db.under [kExpirationEvent]) [] = _ := since_bot _ _
    rw [List.append_nil, hall] at htake
    rw [htake, List.map_map]
    exact List.map_congr_left fun row hm => (rowOf_eventOfRow h hm).1.symm
  refine ⟨_, by rw [← hrows]; exact List.takeWhile_append_dropWhile.symm, ?_⟩
  intro row hrow
  have hm : row ∈ db.seek [kExpirationEvent] :=
    (List.dropWhile_suffix _).subset (List.mem_of_mem_head? hrow)
  have hle : [kExpirationEvent] ≤ row.1 := ((mem_since_iff _ db.sorted).mp hm).2
  have hp := List.head?_dropWhile_not (fun row : Bytes × Bytes => [kExpirationEvent] <+: row.1)
    (db.seek [kExpirationEvent])
  rw [Option.mem_def.mp hrow] at hp
  rcases hk : row.1 with _ | ⟨c, bytes⟩
  · rw [hk] at hle
    exact absurd hle (not_le.mpr List.Lex.nil)
  · refine ⟨c, bytes, rfl, ?_⟩
    rintro rfl
    simp [hk] at hp

theorem pairwise_deadlines (store : Store) :
    (expirationEvents store).Pairwise fun e e' => e.1 ≤ e'.1 := by
  refine (sorted_expirationEvents store).imp fun {e e'} hkey => ?_
  rcases eventLe_iff.mp (eventLe_iff_eventKey.mpr hkey) with hlt | ⟨heq, -⟩
  · exact UInt64.le_of_lt hlt
  · exact UInt64.le_of_eq heq

/-- The deadlines go up, and the assertion of the iterator never fails. -/
theorem collect_eq {db : Database} {store : Store} (h : db.Records store) {turns : Nat}
    (hturns : db.rows.length < turns) :
    (construct db >>= collect turns) = .ok (expirationEvents store) := by
  obtain ⟨rest, hseek, hended⟩ := seek_events h
  have hlen : (db.seek [kExpirationEvent]).length ≤ db.rows.length :=
    (since_suffix _ _ _).length_le
  rw [hseek, List.length_append, List.length_map] at hlen
  have hsorted : ((db.under [kExpirationEvent]).map eventOfRow).Pairwise
      fun e e' => e.1.1 ≤ e'.1.1 := by
    have hle := pairwise_deadlines store
    rw [← under_events h, List.pairwise_map] at hle
    exact List.pairwise_map.mpr hle
  unfold construct
  rw [hseek, collect_events _ (by omega) hsorted (fun _ _ => UInt64.zero_le) hended, List.map_map]
  exact congrArg Except.ok (under_events h)

end ExpirationEventIterator

/-! ## Descriptors, numbers and iterators -/

open KeyDescriptor

/-- The type of the descriptor is one of those that are kept, its size is a signed word, and its
indices stand in order where it has both. -/
structure KeyDescriptor.Serializable (d : KeyDescriptor) : Prop where
  kept : layout d.keyType ≠ .none
  fits : InWord d.sz
  ordered : layout d.keyType = .indices → d.startIndex ≤ d.endIndex

theorem descriptors_round_trip_and_numbers_go_up :
    (∀ (d : KeyDescriptor) (b : StaticBuffer kMaxDescriptorSize), d.Serializable →
      ∃ bytes, (d.serializeInto.on b).1 = .ok bytes ∧ construct bytes = .ok d.stored) ∧
    (∀ (d : KeyDescriptor) (b : StaticBuffer kMaxDescriptorSize), layout d.keyType = .none →
      (d.serializeInto.on b).1 =
        .error (.thrown "attempted to serialize invalid key descriptor")) ∧
    (∀ (d d' : KeyDescriptor) (b b' : StaticBuffer kMaxDescriptorSize) (bytes : Bytes),
      d.Serializable → d'.Serializable → (d.serializeInto.on b).1 = .ok bytes →
        (d'.serializeInto.on b').1 = .ok bytes → d.stored = d'.stored) ∧
    (∀ x y : Int, InWord x → InWord y → intToBinaryString x = intToBinaryString y → x = y) ∧
    (∀ m n : UInt64,
      (unsignedIntToBinaryString m = unsignedIntToBinaryString n ↔ m = n) ∧
      (unsignedIntToBinaryString m < unsignedIntToBinaryString n ↔ m < n) ∧
      (intToBinaryString (toSigned m) < intToBinaryString (toSigned n) ↔ m < n)) ∧
    (∀ (db : Database) (key : Bytes),
      db.rows.Pairwise fun row row' => ∀ (i j : UInt64) (l l' : FieldLocator),
        FieldLocator.ofField .kDeque key (unsignedIntToBinaryString i) = .ok l →
        FieldLocator.ofField .kDeque key (unsignedIntToBinaryString j) = .ok l' →
        row.1 = l.toView → row'.1 = l'.toView → i < j) ∧
    (∀ (db : Database) (store : Store) (turns : Nat), db.Records store →
      db.rows.length < turns →
        (ExpirationEventIterator.construct db >>= ExpirationEventIterator.collect turns) =
          .ok (expirationEvents store) ∧
        (∀ deadline key, (deadline, key) ∈ expirationEvents store ↔
          .expirationEvent deadline key ∈ store) ∧
        (expirationEvents store).Pairwise fun e e' => e.1 ≤ e'.1) := by
  refine ⟨fun d b hd => ?_, fun d b hl => ?_, fun d d' b b' bytes hd hd' h h' => ?_,
    fun _ _ => intToBinaryString_inj, fun m n => ⟨unsignedIntToBinaryString_inj,
      unsignedIntToBinaryString_lt_iff, ?_⟩, Database.pairwise_items, fun db store turns hdb hturns =>
      ⟨ExpirationEventIterator.collect_eq hdb hturns, fun _ _ => mem_expirationEvents,
        ExpirationEventIterator.pairwise_deadlines store⟩⟩
  · obtain ⟨bytes, h⟩ := serialize_ok hd.kept hd.ordered
    rw [← on_serializeInto d b] at h
    exact ⟨bytes, h, construct_serializeInto hd.fits h⟩
  · rw [on_serializeInto]
    unfold serialize
    rw [hl]
  · have hread := construct_serializeInto hd.fits h
    rw [construct_serializeInto hd'.fits h'] at hread
    exact (Except.ok.inj hread).symm
  · rw [intToBinaryString_toSigned, intToBinaryString_toSigned]
    exact unsignedIntToBinaryString_lt_iff

end quarkdb
