-- Deques are double-ended queues: whatever is pushed, popped and trimmed at both ends,
-- in batches, the replies are those of a list.
import QuarkDB.Batches
import QuarkDB.IndexedCommands

namespace quarkdb

open Endian StateMachine StagingArea Tally Outcome RedisDispatcher

/-! ## Double-ended queues -/

/-- The commands on a deque. -/
inductive DequeCommand
  | pushFront (item : Bytes) (items : List Bytes)
  | pushBack (item : Bytes) (items : List Bytes)
  | popFront
  | popBack
  | trimFront (maxToKeep : Bytes)
  | clear
  | len
  | del

namespace DequeCommand

def command : DequeCommand → RedisCommand
  | .pushFront _ _ => .DEQUE_PUSH_FRONT
  | .pushBack _ _ => .DEQUE_PUSH_BACK
  | .popFront => .DEQUE_POP_FRONT
  | .popBack => .DEQUE_POP_BACK
  | .trimFront _ => .DEQUE_TRIM_FRONT
  | .clear => .DEQUE_CLEAR
  | .len => .DEQUE_LEN
  | .del => .DEL

def arguments (key : Bytes) : DequeCommand → List Bytes
  | .pushFront item items | .pushBack item items => key :: item :: items
  | .trimFront maxToKeep => [key, maxToKeep]
  | .popFront | .popBack | .clear | .len | .del => [key]

/-- A request for the command, in any spelling of its name. -/
def Spells (key : Bytes) (request : RedisRequest) (c : DequeCommand) : Prop :=
  getCommand request = c.command ∧ request.tail = c.arguments key

instance (key : Bytes) (request : RedisRequest) (c : DequeCommand) :
    Decidable (c.Spells key request) := inferInstanceAs (Decidable (_ ∧ _))

def pushes : DequeCommand → Nat
  | .pushFront _ items | .pushBack _ items => items.length + 1
  | _ => 0

/-- Keep at most so many items, those at the back: how many go, and what is left. -/
def trim : Option Int → List Bytes → Bytes × List Bytes
  | none, q => (Formatter.fromStatus (malformed "value is not an integer or out of range"), q)
  | some n, q =>
    if n < 0 then
      (Formatter.fromStatus (malformed "value is not an integer or out of range"), q)
    else (Formatter.integer (q.length - n.toNat : Nat), q.drop (q.length - n.toNat))

/-- What a list answers, the front first. -/
def answer : DequeCommand → List Bytes → Bytes × List Bytes
  | .pushFront item items, q =>
    (Formatter.integer (q.length + (items.length + 1) : Nat), (item :: items).reverse ++ q)
  | .pushBack item items, q =>
    (Formatter.integer (q.length + (items.length + 1) : Nat), q ++ item :: items)
  | .popFront, q => ((q.head?.map Formatter.string).getD Formatter.null, q.tail)
  | .popBack, q => ((q.getLast?.map Formatter.string).getD Formatter.null, q.dropLast)
  | .trimFront maxToKeep, q => trim (parseInt64 maxToKeep) q
  | .clear, q => trim (some 0) q
  | .len, q => (Formatter.integer q.length, q)
  | .del, q => (Formatter.integer (if q = [] then 0 else 1), [])

end DequeCommand

/-! ## What the store holds of a deque -/

/-- The items of a deque, in order: the first one has index `first`. -/
structure Items (store : Store) (key : Bytes) (first : Nat) (items : List Bytes) : Prop where
  deque : Deque store key first (first + items.length)
  stored : ∀ i item, items[i]? = some item → store.lookup (itemKey key (first + i)) = some item

section

variable {store store' : Store} {key : Bytes} {first : Nat} {items : List Bytes}

theorem Items.congr (h : SameData key store store') (hi : Items store key first items) :
    Items store' key first items := by
  refine ⟨⟨h.only hi.deque.only, h.window hi.deque.window, ?_⟩, fun i item hg => ?_⟩
  · rw [← h.count fun k => owner_of_isField]
    exact hi.deque.size_eq
  · rw [← h _ rfl rfl]
    exact hi.stored i item hg

theorem itemKey_ne {i j : Nat} (hi : i < 2 ^ 64) (hj : j < 2 ^ 64) (h : i ≠ j) :
    itemKey key i ≠ itemKey key j := by
  intro he
  exact h (index_injective hi hj (StoreKey.field.inj he).2.2)

theorem Items.empty (first : Nat) (h : ∀ k ∈ store, k.owner ≠ some key) (hf : first ≤ 2 ^ 64) :
    Items store key first [] :=
  ⟨Deque.of_nothing h hf, fun _ _ hg => nomatch hg⟩

theorem Items.push_front (h : Items store key (first + 1) items) (item : Bytes) :
    Items (store.insert (itemKey key first) item) key first (item :: items) := by
  have hb := h.deque.window.bounded
  refine ⟨?_, fun i value hg => ?_⟩
  · have hd := h.deque.insert_first item
    rwa [show first + 1 + items.length = first + (item :: items).length by
      rw [List.length_cons]; omega] at hd
  · cases i with
    | zero =>
      cases hg
      exact AList.lookup_insert _
    | succ i =>
      rw [List.getElem?_cons_succ] at hg
      have hlt := (List.getElem?_eq_some_iff.mp hg).1
      rw [AList.lookup_insert_ne (itemKey_ne (by omega) (by omega) (by omega)),
        show first + (i + 1) = first + 1 + i by omega]
      exact h.stored i value hg

theorem Items.push_back (h : Items store key first items) (item : Bytes)
    (hl : first + items.length < 2 ^ 64) :
    Items (store.insert (itemKey key (first + items.length)) item) key first (items ++ [item]) := by
  refine ⟨?_, fun i value hg => ?_⟩
  · have hd := h.deque.insert_last item hl
    rwa [show first + items.length + 1 = first + (items ++ [item]).length by simp; omega] at hd
  · rcases Nat.lt_or_ge i items.length with hi | hi
    · rw [List.getElem?_append_left hi] at hg
      rw [AList.lookup_insert_ne (itemKey_ne (by omega) (by omega) (by omega))]
      exact h.stored i value hg
    · rw [List.getElem?_append_right hi] at hg
      have hz : i = items.length := by
        have := (List.getElem?_eq_some_iff.mp hg).1
        simp only [List.length_singleton] at this
        omega
      subst hz
      simp only [Nat.sub_self, List.getElem?_cons_zero, Option.some.injEq] at hg
      rw [hg]
      exact AList.lookup_insert _

theorem Items.pop_front {item : Bytes} (h : Items store key first (item :: items)) :
    Items (store.erase (itemKey key first)) key (first + 1) items := by
  have hb := h.deque.window.bounded
  simp only [List.length_cons] at hb
  refine ⟨?_, fun i value hg => ?_⟩
  · have hd := h.deque.erase_first (by rw [List.length_cons]; omega)
    rwa [show first + (item :: items).length = first + 1 + items.length by
      rw [List.length_cons]; omega] at hd
  · have hlt := (List.getElem?_eq_some_iff.mp hg).1
    rw [AList.lookup_erase_ne (itemKey_ne (by omega) (by omega) (by omega)),
      show first + 1 + i = first + (i + 1) by omega]
    exact h.stored (i + 1) value (by rw [List.getElem?_cons_succ]; exact hg)

theorem Items.pop_back {item : Bytes} (h : Items store key first (items ++ [item])) :
    Items (store.erase (itemKey key (first + items.length))) key first items := by
  have hb := h.deque.window.bounded
  simp only [List.length_append, List.length_singleton] at hb
  refine ⟨?_, fun i value hg => ?_⟩
  · apply Deque.erase_last _ (by omega)
    have hd := h.deque
    rwa [show first + (items ++ [item]).length = first + items.length + 1 by simp; omega] at hd
  · have hlt := (List.getElem?_eq_some_iff.mp hg).1
    rw [AList.lookup_erase_ne (itemKey_ne (by omega) (by omega) (by omega))]
    exact h.stored i value (by rw [List.getElem?_append_left hlt]; exact hg)

end

/-- What the store holds of a deque. An empty one is not there at all. The descriptor of
another has its size, and its indices stand around the items; they have not moved further
than items were pushed. -/
def Represents (store : Store) (key : Bytes) (items : List Bytes) (pushes : Nat) : Prop :=
  (items = [] ∧ ∀ k ∈ store, k.owner ≠ some key) ∨
  items ≠ [] ∧ ∃ bytes d, store.lookup (.descriptor key) = some bytes ∧
    KeyDescriptor.ofBytes bytes = .ok d ∧ d.keyType = .kDeque ∧ d.sz = items.length ∧
    d.endIndex.toNat = d.startIndex.toNat + 1 + items.length ∧
    Items store key (d.startIndex.toNat + 1) items ∧
    2 ^ 63 ≤ d.startIndex.toNat + 1 + pushes ∧ d.endIndex.toNat < 2 ^ 63 + pushes

/-! ## The operations -/

/-- What a push at one end makes of the items. -/
def Direction.push (direction : Direction) (items q : List Bytes) : List Bytes :=
  match direction with
  | .kLeft => items.reverse ++ q
  | .kRight => q ++ items

/-- An operation on a deque that may write. -/
structure OnDeque (key : Bytes) (op : WriteOperation) : Prop where
  redisKey_eq : op.redisKey = key
  valid : op.isValid = true
  keyType_eq : op.keyinfo.keyType = .kDeque

section

variable {key : Bytes} {s : StagingArea} {op : WriteOperation} {fault : Fault → Prop}
  {q : List Bytes} {first pushes : Nat}

theorem OnDeque.writeField (h : OnDeque key op) (j : Nat) (value : Bytes) :
    op.writeField (unsignedIntToBinaryString (UInt64.ofNat j)) value = put (itemKey key j) value := by
  rw [WriteOperation.writeField_eq h.valid (by rw [h.keyType_eq]; rfl), h.redisKey_eq, h.keyType_eq]

theorem OnDeque.getField (h : OnDeque key op) (j : Nat) :
    op.getField (unsignedIntToBinaryString (UInt64.ofNat j)) = get (itemKey key j) := by
  rw [WriteOperation.getField_eq h.valid (by rw [h.keyType_eq]; rfl), h.redisKey_eq, h.keyType_eq]

theorem OnDeque.deleteField (h : OnDeque key op) (j : Nat) :
    op.deleteField (unsignedIntToBinaryString (UInt64.ofNat j)) =
      WriteOperation.deleteKey (itemKey key j) := by
  rw [WriteOperation.deleteField_eq h.valid (by rw [h.keyType_eq]; rfl), h.redisKey_eq,
    h.keyType_eq]

theorem OnDeque.congr (h : OnDeque key op) {d : KeyDescriptor} (hd : d.keyType = .kDeque) :
    OnDeque key { op with keyinfo := d } := ⟨h.redisKey_eq, h.valid, hd⟩

theorem Items.nothing {store : Store} (h : Items store key first []) :
    ∀ k ∈ store.erase (.descriptor key), k.owner ≠ some key := by
  have hd : Data store key { keyType := .kDeque } := by
    refine h.deque.data rfl ?_ fun hlt => absurd hlt (by simp)
    simp
  exact hd.erased rfl

/-- The descriptor is written, or goes with the last item. -/
theorem yields_finalize_items (ho : OnDeque key op) (hi : Items s.store key first q)
    (hx : q ≠ [] → op.keyinfo.startIndex.toNat + 1 = first ∧
      op.keyinfo.endIndex.toNat = first + q.length)
    (hw : op.keyinfo.sz ≠ q.length) (hlo : 2 ^ 63 ≤ first + pushes)
    (hhi : first + q.length < 2 ^ 63 + pushes) (hp : pushes < 2 ^ 62) :
    Yields (op.finalize q.length false) s (fun _ s' => Represents s'.store key q pushes) fault := by
  by_cases hq : q = []
  · subst hq
    show Yields (op.finalize 0 false) _ _ _
    rw [yields_finalize_gone ho.valid (by rw [ho.keyType_eq]; nofun), ho.redisKey_eq]
    exact .inl ⟨rfl, hi.nothing⟩
  · obtain ⟨h1, h2⟩ := hx hq
    have hpos : 0 < q.length := List.length_pos_iff.mpr hq
    obtain ⟨bytes, hs, hd⟩ := ofBytes_of_indices (d := { op.keyinfo with sz := q.length })
      (by show KeyDescriptor.layout op.keyinfo.keyType = _; rw [ho.keyType_eq]; rfl)
      (by show op.keyinfo.startIndex ≤ op.keyinfo.endIndex
          rw [UInt64.le_iff_toNat_le]
          omega)
      (by show (0 : Int) ≤ q.length; omega)
      (by show (q.length : Int) < 2 ^ 63; omega)
    rw [yields_finalize_written ho.valid (by omega) (by omega) (.inl hw) hs, ho.redisKey_eq]
    refine .inr ⟨hq, bytes, _, AList.lookup_insert _, hd, ho.keyType_eq, rfl, ?_, ?_, ?_, ?_⟩
    · show op.keyinfo.endIndex.toNat = op.keyinfo.startIndex.toNat + 1 + q.length
      omega
    · show Items (s.store.insert _ _) key (op.keyinfo.startIndex.toNat + 1) q
      rw [h1]
      refine hi.congr fun k _ ht => ?_
      rw [AList.lookup_insert_ne]
      rintro rfl
      cases ht
    · show 2 ^ 63 ≤ op.keyinfo.startIndex.toNat + 1 + pushes
      omega
    · show op.keyinfo.endIndex.toNat < 2 ^ 63 + pushes
      omega

theorem yields_pushLoop_left (ho : OnDeque key op) (last : Nat) (items : List Bytes)
    {s : StagingArea} (added : Nat) {q : List Bytes} (hi : Items s.store key (last + 1 - added) q)
    (hf : added + items.length ≤ last) :
    Yields (pushLoop op .kLeft (UInt64.ofNat last) added items) s
      (fun _ s' => Items s'.store key (last + 1 - (added + items.length)) (items.reverse ++ q))
      fault := by
  induction items generalizing s added q with
  | nil => exact hi
  | cons item rest ih =>
    rw [List.length_cons] at hf ⊢
    have hw : Direction.walk .kLeft (UInt64.ofNat last) added = UInt64.ofNat (last - added) :=
      (UInt64.ofNat_sub (by omega)).symm
    unfold pushLoop
    rw [hw, ho.writeField, yields_bind, yields_put,
      show added + (rest.length + 1) = added + 1 + rest.length by omega, List.reverse_cons,
      List.append_assoc, List.singleton_append]
    apply ih
    · rw [show last + 1 - (added + 1) = last - added by omega]
      apply Items.push_front
      rwa [show last - added + 1 = last + 1 - added by omega]
    · omega

theorem yields_pushLoop_right (ho : OnDeque key op) (last : Nat) (items : List Bytes)
    {s : StagingArea} (added : Nat) {q : List Bytes} (hi : Items s.store key first q)
    (hl : last + added = first + q.length) (hf : last + added + items.length < 2 ^ 64) :
    Yields (pushLoop op .kRight (UInt64.ofNat last) added items) s
      (fun _ s' => Items s'.store key first (q ++ items)) fault := by
  induction items generalizing s added q with
  | nil =>
    rw [List.append_nil]
    exact hi
  | cons item rest ih =>
    rw [List.length_cons] at hf
    have hw : Direction.walk .kRight (UInt64.ofNat last) added = UInt64.ofNat (last + added) :=
      (UInt64.ofNat_add last added).symm
    have hpush := hi.push_back item (by omega)
    unfold pushLoop
    rw [hw, ho.writeField, yields_bind, yields_put, List.append_cons, hl]
    apply ih (added + 1) hpush
    · rw [List.length_append, List.length_singleton]
      omega
    · omega

/-- Items are added, and the descriptor is written. -/
theorem yields_pushed (first : Nat) {direction : Direction} {items q' : List Bytes}
    {listIndex : UInt64} {d : KeyDescriptor} (ho : OnDeque key op) (hd : d.keyType = .kDeque)
    (hsz : d.sz = op.keySize) (hsize : op.keySize = q.length) (hne : items ≠ [])
    (hlen : q'.length = q.length + items.length)
    (hloop : Yields (pushLoop op direction listIndex 0 items) s
      (fun _ s' => Items s'.store key first q') fault)
    (hx : d.startIndex.toNat + 1 = first ∧ d.endIndex.toNat = first + q'.length)
    (hlo : 2 ^ 63 ≤ first + pushes) (hhi : first + q'.length < 2 ^ 63 + pushes)
    (hp : pushes < 2 ^ 62) :
    Yields (do
      pushLoop op direction listIndex 0 items
      { op with keyinfo := d }.finalize (sum64 op.keySize items.length) false
      return (Status.OK, sum64 op.keySize items.length)) s
      (fun r s' => r = (.OK, (q'.length : Int)) ∧ Represents s'.store key q' pushes) fault := by
  have hpos : 0 < items.length := List.length_pos_iff.mpr hne
  have hsum : sum64 op.keySize items.length = q'.length := by
    rw [sum64_of_fits] <;> omega
  rw [yields_bind, hsum]
  refine hloop.mono fun _ s' hi => ?_
  rw [yields_bind]
  refine (yields_finalize_items (ho.congr hd) hi (fun _ => hx) ?_ hlo hhi hp).mono fun _ s'' h => ?_
  · show d.sz ≠ _
    omega
  · rw [yields_pure]
    exact ⟨rfl, h⟩

theorem Direction.length_push (direction : Direction) (items q : List Bytes) :
    (direction.push items q).length = q.length + items.length := by
  cases direction with
  | kLeft =>
    simp only [Direction.push, List.length_append, List.length_reverse]
    omega
  | kRight => simp only [Direction.push, List.length_append]

theorem toNat_kIndexInitialValue : kIndexInitialValue.toNat = 2 ^ 63 - 1 := by decide +kernel

theorem kIndexInitialValue_eq : kIndexInitialValue = UInt64.ofNat (2 ^ 63 - 1) := by decide +kernel

theorem onDeque_fresh (key : Bytes) : OnDeque key (.fresh key .kDeque) := ⟨rfl, rfl, rfl⟩

theorem yields_dequePush (h : Represents s.store key q pushes) (direction : Direction)
    {items : List Bytes} (hne : items ≠ []) (hp : pushes + items.length < 2 ^ 62) :
    Yields (dequePush direction key items) s
      (fun r s' => r = (.OK, ((direction.push items q).length : Int)) ∧
        Represents s'.store key (direction.push items q) (pushes + items.length)) fault := by
  have hpos : 0 < items.length := List.length_pos_iff.mpr hne
  have hinit := toNat_kIndexInitialValue
  have hlen := direction.length_push items q
  unfold dequePush
  rcases h with ⟨rfl, hn⟩ | ⟨hq, bytes, d, hl, hd, ht, hz, he, hi, hlo, hhi⟩
  · -- the first items stand around the middle
    have hnone : s.store.lookup (.descriptor key) = none :=
      AList.lookup_eq_none.mpr fun hk => hn _ hk rfl
    rw [yields_withOperation_fresh hnone]
    have ho := onDeque_fresh key
    cases direction with
    | kLeft =>
      refine yields_pushed (2 ^ 63 - items.length) (q := []) ho rfl rfl rfl hne hlen ?_ ?_
        ?_ ?_ hp
      · rw [show 2 ^ 63 - items.length = 2 ^ 63 - 1 + 1 - (0 + items.length) by omega]
        have he := Items.empty (2 ^ 63 - 1 + 1 - 0) hn (by omega)
        have hpush := @yields_pushLoop_left key _ fault ho (2 ^ 63 - 1) items _ 0 _ he (by omega)
        rw [← kIndexInitialValue_eq] at hpush
        exact hpush
      · show (kIndexInitialValue - UInt64.ofNat items.length).toNat + 1 = _ ∧
          (kIndexInitialValue + UInt64.ofNat 1).toNat = _
        rw [toNat_sub_steps (by omega), toNat_add_steps (by omega), hlen, List.length_nil]
        omega
      · omega
      · rw [hlen, List.length_nil]
        omega
    | kRight =>
      refine yields_pushed (2 ^ 63 - 1) (q := []) ho rfl rfl rfl hne hlen ?_ ?_ ?_ ?_ hp
      · have he := Items.empty (2 ^ 63 - 1) hn (by omega)
        have hpush := @yields_pushLoop_right key _ fault _ ho (2 ^ 63 - 1) items _ 0 _ he rfl (by omega)
        rw [← kIndexInitialValue_eq] at hpush
        exact hpush
      · show (kIndexInitialValue - UInt64.ofNat 1).toNat + 1 = _ ∧
          (kIndexInitialValue + UInt64.ofNat items.length).toNat = _
        rw [toNat_sub_steps (by omega), toNat_add_steps (by omega), hlen, List.length_nil]
        omega
      · omega
      · rw [hlen, List.length_nil]
        omega
  · have hlq : 0 < q.length := List.length_pos_iff.mpr hq
    rw [yields_withOperation_known hl hd ht nofun]
    have ho : OnDeque key { redisKey := key, keyinfo := d, redisKeyExists := true, isValid := true } :=
      ⟨rfl, rfl, ht⟩
    have hks : WriteOperation.keySize
        { redisKey := key, keyinfo := d, redisKeyExists := true, isValid := true } ≠ 0 := by
      show d.sz ≠ 0
      omega
    dsimp only
    rw [if_neg hks]
    cases direction with
    | kLeft =>
      refine yields_pushed (d.startIndex.toNat + 1 - items.length) (q := q) ho ht rfl hz hne
        hlen ?_ ?_ ?_ ?_ hp
      · have hpush := @yields_pushLoop_left key _ fault ho d.startIndex.toNat items _ 0 _ hi (by omega)
        rw [UInt64.ofNat_toNat, Nat.zero_add] at hpush
        exact hpush
      · show (d.startIndex - UInt64.ofNat items.length).toNat + 1 = _ ∧ d.endIndex.toNat = _
        rw [toNat_sub_steps (by omega), hlen]
        omega
      · omega
      · omega
    | kRight =>
      refine yields_pushed (d.startIndex.toNat + 1) (q := q) ho ht rfl hz hne hlen ?_ ?_ ?_
        ?_ hp
      · have hpush := @yields_pushLoop_right key _ fault _ ho d.endIndex.toNat items _ 0 _ hi (by omega)
          (by omega)
        rw [UInt64.ofNat_toNat] at hpush
        exact hpush
      · show d.startIndex.toNat + 1 = _ ∧ (d.endIndex + UInt64.ofNat items.length).toNat = _
        rw [toNat_add_steps (by omega), hlen]
        omega
      · omega
      · omega

theorem getLast_of_push {q : List Bytes} (h : q ≠ []) :
    ∃ rest item, q = rest ++ [item] :=
  ⟨q.dropLast, q.getLast h, (List.dropLast_append_getLast h).symm⟩

theorem yields_dequePop_nothing (hn : ∀ k ∈ s.store, k.owner ≠ some key) (direction : Direction) :
    Yields (dequePop direction key) s
      (fun r s' => r = (.NotFound, []) ∧ ∀ k ∈ s'.store, k.owner ≠ some key) fault := by
  have hnone : s.store.lookup (.descriptor key) = none :=
    AList.lookup_eq_none.mpr fun hk => hn _ hk rfl
  have hz : (WriteOperation.fresh key .kDeque).keySize = 0 := rfl
  unfold dequePop
  rw [yields_withOperation_fresh hnone, if_pos hz, yields_bind,
    yields_finalize_gone rfl (by exact nofun), yields_pure]
  exact ⟨rfl, fun k hk => hn k (AList.mem_erase.mp hk).2⟩

/-- An item that is stored where the pop looks for it is returned, and deleted. -/
theorem yields_dequePop_found {direction : Direction} {bytes item : Bytes} {d : KeyDescriptor}
    {j : Nat} (hl : s.store.lookup (.descriptor key) = some bytes)
    (hd : KeyDescriptor.ofBytes bytes = .ok d) (ht : d.keyType = .kDeque)
    (hz : d.sz = q.length + 1) (hs : s.store.lookup (itemKey key j) = some item)
    (hv : (flipDirection direction).walk (d.getListIndex direction) 1 = UInt64.ofNat j)
    (hi : Items (s.store.erase (itemKey key j)) key first q)
    (hx : q ≠ [] → (d.setListIndex direction (UInt64.ofNat j)).startIndex.toNat + 1 = first ∧
      (d.setListIndex direction (UInt64.ofNat j)).endIndex.toNat = first + q.length)
    (hlo : 2 ^ 63 ≤ first + pushes) (hhi : first + q.length < 2 ^ 63 + pushes)
    (hp : pushes < 2 ^ 62) :
    Yields (dequePop direction key) s
      (fun r s' => r = (.OK, item) ∧ Represents s'.store key q pushes) fault := by
  have ho : OnDeque key { redisKey := key, keyinfo := d, redisKeyExists := true, isValid := true } :=
    ⟨rfl, rfl, ht⟩
  have hks : WriteOperation.keySize
      { redisKey := key, keyinfo := d, redisKeyExists := true, isValid := true } = q.length + 1 := hz
  unfold dequePop
  rw [yields_withOperation_known hl hd ht nofun, if_neg (by omega)]
  dsimp only
  rw [hv, ho.getField, yields_bind, yields_lookup, hs]
  dsimp only
  rw [ho.deleteField, yields_bind, yields_deleteKey (AList.lookup_isSome.mp (by rw [hs]; rfl)),
    assertThat_true, pure_bind, hks, sum64_of_fits (by omega) (by omega),
    show (q.length : Int) + 1 + -1 = q.length by omega, yields_bind]
  refine (yields_finalize_items (ho.congr ?_) hi hx ?_ hlo hhi hp).mono fun _ s' h => ?_
  · exact (setListIndex_keyType d direction _).trans ht
  · show (d.setListIndex direction (UInt64.ofNat j)).sz ≠ _
    rw [setListIndex_sz]
    omega
  · rw [yields_pure]
    exact ⟨rfl, h⟩

theorem yields_dequePopFront (h : Represents s.store key q pushes) (hp : pushes < 2 ^ 62) :
    Yields (dequePop .kLeft key) s
      (fun r s' => replyOrNull r Formatter.string = (DequeCommand.popFront.answer q).1 ∧
        Represents s'.store key q.tail pushes) fault := by
  rcases h with ⟨rfl, hn⟩ | ⟨hq, bytes, d, hl, hd, ht, hz, he, hi, hlo, hhi⟩
  · refine (yields_dequePop_nothing hn .kLeft).mono fun r s' hr => ?_
    obtain ⟨rfl, hn'⟩ := hr
    exact ⟨rfl, .inl ⟨rfl, hn'⟩⟩
  · obtain ⟨item, rest, rfl⟩ := List.exists_cons_of_ne_nil hq
    rw [List.length_cons] at hz he
    have hlt := d.endIndex.toNat_lt
    have hv : Direction.walk (flipDirection .kLeft) (d.getListIndex .kLeft) 1 =
        UInt64.ofNat (d.startIndex.toNat + 1) := by
      rw [UInt64.ofNat_add, UInt64.ofNat_toNat]
      rfl
    have hn : (UInt64.ofNat (d.startIndex.toNat + 1)).toNat = d.startIndex.toNat + 1 := by
      rw [UInt64.toNat_ofNat']
      omega
    have hs := hi.stored 0 item rfl
    refine (yields_dequePop_found hl hd ht (by exact_mod_cast hz) hs hv hi.pop_front (fun _ => ?_)
      (by omega) (by omega) hp).mono fun r s' hr => ?_
    · show (UInt64.ofNat (d.startIndex.toNat + 1)).toNat + 1 = _ ∧ d.endIndex.toNat = _
      omega
    · obtain ⟨rfl, hr'⟩ := hr
      exact ⟨rfl, hr'⟩

theorem yields_dequePopBack (h : Represents s.store key q pushes) (hp : pushes < 2 ^ 62) :
    Yields (dequePop .kRight key) s
      (fun r s' => replyOrNull r Formatter.string = (DequeCommand.popBack.answer q).1 ∧
        Represents s'.store key q.dropLast pushes) fault := by
  rcases h with ⟨rfl, hn⟩ | ⟨hq, bytes, d, hl, hd, ht, hz, he, hi, hlo, hhi⟩
  · refine (yields_dequePop_nothing hn .kRight).mono fun r s' hr => ?_
    obtain ⟨rfl, hn'⟩ := hr
    exact ⟨rfl, .inl ⟨rfl, hn'⟩⟩
  · obtain ⟨rest, item, rfl⟩ := getLast_of_push hq
    rw [List.length_append, List.length_singleton] at hz he
    have hlt := d.endIndex.toNat_lt
    have hv : Direction.walk (flipDirection .kRight) (d.getListIndex .kRight) 1 =
        UInt64.ofNat (d.startIndex.toNat + 1 + rest.length) := by
      have hj : d.startIndex.toNat + 1 + rest.length = d.endIndex.toNat - 1 := by omega
      rw [hj, UInt64.ofNat_sub (by omega), UInt64.ofNat_toNat]
      rfl
    have hn : (UInt64.ofNat (d.startIndex.toNat + 1 + rest.length)).toNat =
        d.startIndex.toNat + 1 + rest.length := by
      rw [UInt64.toNat_ofNat']
      omega
    have hs := hi.stored rest.length item (by simp)
    rw [List.dropLast_concat]
    refine (yields_dequePop_found hl hd ht (by exact_mod_cast hz) hs hv hi.pop_back (fun _ => ?_)
      (by omega) (by omega) hp).mono fun r s' hr => ?_
    · show d.startIndex.toNat + 1 = _ ∧
        (UInt64.ofNat (d.startIndex.toNat + 1 + rest.length)).toNat = _
      omega
    · obtain ⟨rfl, hr'⟩ := hr
      refine ⟨?_, hr'⟩
      simp [DequeCommand.answer, replyOrNull, replyWith, Status.isNotFound, Status.ok]

theorem yields_trimLoop (ho : OnDeque key op) (toRemove : Nat) {s : StagingArea} {first : Nat}
    {q : List Bytes} (hi : Items s.store key first q) (hl : toRemove ≤ q.length) :
    Yields (trimLoop op toRemove (UInt64.ofNat first)) s
      (fun _ s' => Items s'.store key (first + toRemove) (q.drop toRemove)) fault := by
  induction toRemove generalizing s first q with
  | zero => exact hi
  | succ toRemove ih =>
    rcases q with _ | ⟨item, rest⟩
    · cases hl
    have hs := hi.stored 0 item rfl
    rw [Nat.add_zero] at hs
    have hnext : UInt64.ofNat first + 1 = UInt64.ofNat (first + 1) := (UInt64.ofNat_add first 1).symm
    unfold trimLoop
    rw [ho.deleteField, yields_bind, yields_deleteKey (AList.lookup_isSome.mp (by rw [hs]; rfl)),
      assertThat_true, pure_bind, hnext, List.drop_succ_cons,
      show first + (toRemove + 1) = first + 1 + toRemove by omega]
    exact ih hi.pop_front (by rw [List.length_cons] at hl; omega)

theorem yields_dequeTrimFront {maxToKeepStr : Bytes} {parsed : Option Int}
    (hm : parseInt64 maxToKeepStr = parsed) (h : Represents s.store key q pushes)
    (hp : pushes < 2 ^ 62) :
    Yields (dequeTrimFront key maxToKeepStr) s
      (fun r s' => replyWith r Formatter.integer = (DequeCommand.trim parsed q).1 ∧
        Represents s'.store key (DequeCommand.trim parsed q).2 pushes) fault := by
  unfold dequeTrimFront
  rw [hm]
  cases parsed with
  | none => exact ⟨rfl, h⟩
  | some maxToKeep =>
    unfold DequeCommand.trim
    dsimp only
    by_cases hneg : maxToKeep < 0
    · simp only [if_pos hneg]
      exact ⟨rfl, h⟩
    simp only [if_neg hneg]
    rcases h with ⟨rfl, hn⟩ | ⟨hq, bytes, d, hl, hd, ht, hz, he, hi, hlo, hhi⟩
    · have hnone : s.store.lookup (.descriptor key) = none :=
        AList.lookup_eq_none.mpr fun hk => hn _ hk rfl
      have hsz : (WriteOperation.fresh key .kDeque).keyinfo.sz = 0 := rfl
      rw [yields_withOperation_fresh hnone, hsz, if_pos (by omega), yields_pure, List.drop_nil,
        List.length_nil, Nat.zero_sub]
      exact ⟨rfl, .inl ⟨rfl, hn⟩⟩
    · have ho : OnDeque key
          { redisKey := key, keyinfo := d, redisKeyExists := true, isValid := true } := ⟨rfl, rfl, ht⟩
      rw [yields_withOperation_known hl hd ht nofun]
      dsimp only
      by_cases hr : d.sz - maxToKeep ≤ 0
      · rw [if_pos hr, yields_pure, show q.length - maxToKeep.toNat = 0 by omega]
        exact ⟨rfl, .inr ⟨hq, bytes, d, hl, hd, ht, hz, he, hi, hlo, hhi⟩⟩
      · have hlt := d.endIndex.toNat_lt
        generalize hto : (d.sz - maxToKeep).toNat = toRemove
        have hfirst : d.startIndex + 1 = UInt64.ofNat (d.startIndex.toNat + 1) := by
          rw [UInt64.ofNat_add, UInt64.ofNat_toNat]
          rfl
        have hstart : (d.startIndex + UInt64.ofNat toRemove).toNat = d.startIndex.toNat + toRemove :=
          toNat_add_steps (by omega)
        have hleft : (d.endIndex - (d.startIndex + UInt64.ofNat toRemove) - 1).toNat =
            maxToKeep.toNat := by
          rw [UInt64.toNat_sub, UInt64.toNat_sub, hstart]
          show (2 ^ 64 - 1 + _) % 2 ^ 64 = _
          omega
        have heq : d.endIndex - (d.startIndex + UInt64.ofNat toRemove) - 1 =
            UInt64.ofNat maxToKeep.toNat := by
          rw [← hleft, UInt64.ofNat_toNat]
        have hdrop : (q.drop toRemove).length = maxToKeep.toNat := by
          rw [List.length_drop]
          omega
        rw [if_neg hr, hfirst, yields_bind, show q.length - maxToKeep.toNat = toRemove by omega]
        refine (yields_trimLoop ho toRemove hi (by omega)).mono fun _ s' hi' => ?_
        rw [decide_eq_true heq, assertThat_true, pure_bind, hleft, signed_of_fits (by omega) (by omega),
          ← hdrop, yields_bind]
        have ho' := ho.congr
          (d := { d with startIndex := d.startIndex + UInt64.ofNat toRemove }) ht
        refine (yields_finalize_items ho' hi' (fun _ => ?_) ?_ (by omega) (by omega) hp).mono
          fun _ s'' h => ?_
        · show (d.startIndex + UInt64.ofNat toRemove).toNat + 1 = _ ∧ d.endIndex.toNat = _
          omega
        · show d.sz ≠ _
          omega
        · rw [yields_pure, show d.sz - maxToKeep = (toRemove : Int) by omega]
          exact ⟨rfl, h⟩

theorem yields_dequeLen (h : Represents s.store key q pushes) :
    Yields (dequeLen key) s (fun r s' => r = (.OK, (q.length : Int)) ∧ s' = s) fault := by
  unfold dequeLen sizeOfType getKeyDescriptor
  rw [yields_bind, yields_bind, yields_lookup]
  rcases h with ⟨rfl, hn⟩ | ⟨hq, bytes, d, hl, hd, ht, hz, -⟩
  · have hnone : s.store.lookup (.descriptor key) = none :=
      AList.lookup_eq_none.mpr fun hk => hn _ hk rfl
    rw [hnone]
    exact ⟨rfl, rfl⟩
  · rw [hl]
    dsimp only
    rw [hd, throwing_ok, yields_pure, if_neg (fun h => h.2 ht), yields_pure, hz]
    exact ⟨rfl, rfl⟩

theorem yields_delDeque (h : Represents s.store key q pushes) :
    Yields (delKeys [key]) s
      (fun r s' => r = (if q = [] then 0 else 1) ∧ Represents s'.store key [] pushes) fault := by
  unfold delKeys getKeyDescriptor
  rw [yields_bind, yields_bind, yields_lookup]
  rcases h with ⟨rfl, hn⟩ | ⟨hq, bytes, d, hl, hd, ht, hz, he, hi, -⟩
  · have hnone : s.store.lookup (.descriptor key) = none :=
      AList.lookup_eq_none.mpr fun hk => hn _ hk rfl
    rw [hnone]
    exact ⟨rfl, .inl ⟨rfl, hn⟩⟩
  · have hempty : d.empty = false := by
      unfold KeyDescriptor.empty
      rw [ht]
      rfl
    have hcount := hi.deque.size_eq
    rw [hl]
    dsimp only
    rw [hd, throwing_ok, yields_pure, hempty, if_neg Bool.false_ne_true, yields_bind]
    unfold removeContents
    rw [ht]
    dsimp only
    unfold removeCounted
    rw [yields_bind]
    refine yields_removeAll fun s' hs' _ => ?_
    rw [if_neg (by omega), yields_pure, yields_bind, yields_del, yields_bind]
    unfold delKeys
    rw [yields_pure, yields_pure, if_neg hq]
    have hdata : Data s'.store key { keyType := .kDeque } := by
      refine ⟨hi.deque.only.removed hs', ?_⟩
      have h0 := count_removed hs'
      exact ⟨by rw [h0]; rfl, fun hne => absurd rfl hne⟩
    exact ⟨rfl, .inl ⟨rfl, hdata.erased rfl⟩⟩

end

/-! ## Batches of commands -/

namespace DequeCommand

def type : DequeCommand → CommandType
  | .len => .READ
  | _ => .WRITE

theorem command_ne (c : DequeCommand) : c.command ≠ .INVALID ∧ c.command ≠ .TX_READWRITE := by
  cases c <;> exact ⟨nofun, nofun⟩

theorem type_of_row (c : DequeCommand) :
    ∀ row ∈ redisCmdMap, row.2.1 = c.command → row.2.2 = c.type := by
  cases c <;> simp only [command, type] <;> decide +kernel

/-- What the dispatcher makes of a command that writes. -/
def run (key : Bytes) : DequeCommand → StagingM Bytes
  | .pushFront item items => do
    return replyWith (← dequePush .kLeft key (item :: items)) Formatter.integer
  | .pushBack item items => do
    return replyWith (← dequePush .kRight key (item :: items)) Formatter.integer
  | .popFront => do return replyOrNull (← dequePop .kLeft key) Formatter.string
  | .popBack => do return replyOrNull (← dequePop .kRight key) Formatter.string
  | .trimFront maxToKeep => do
    return replyWith (← dequeTrimFront key maxToKeep) Formatter.integer
  | .clear => do return replyWith (← dequeTrimFront key (ascii "0")) Formatter.integer
  | .len => do return replyWith (← dequeLen key) Formatter.integer
  | .del => do return Formatter.integer (← delKeys [key])

theorem dispatchCommand_eq_run (doubles : Doubles) {key : Bytes} {c : DequeCommand}
    {request : RedisRequest} (h : c.Spells key request) (hw : c.type = .WRITE) :
    dispatchCommand doubles request = c.run key := by
  obtain ⟨hc, htail⟩ := h
  unfold dispatchCommand
  rw [hc, htail]
  cases c <;> first | rfl | cases hw

theorem dispatchRead_eq_run (others : StagingArea → RedisRequest → Except Fault Bytes)
    {key : Bytes} {request : RedisRequest} (h : DequeCommand.len.Spells key request)
    (s : StagingArea) :
    dispatchRead others s request = readFrom s (DequeCommand.len.run key) := by
  obtain ⟨hc, htail⟩ := h
  unfold dispatchRead
  rw [hc, htail]
  rfl

end DequeCommand

/-- What the store holds once some of the commands are still to come, of those that push so
many items in all. -/
def Pending (key : Bytes) (total : Nat) (rest : List DequeCommand) (q : List Bytes)
    (s : StagingArea) : Prop :=
  ∃ pushes, pushes + (rest.map DequeCommand.pushes).sum = total ∧ Represents s.store key q pushes

theorem Represents.congr {store store' : Store} {key : Bytes} {q : List Bytes} {pushes : Nat}
    (hs : ∀ k : StoreKey, k.owner = some key → store'.lookup k = store.lookup k)
    (h : Represents store key q pushes) : Represents store' key q pushes := by
  have hsame : SameData key store store' := fun k ho _ => (hs k ho).symm
  rcases h with ⟨rfl, hn⟩ | ⟨hq, bytes, d, hl, hd, ht, hz, he, hi, hlo, hhi⟩
  · refine .inl ⟨rfl, fun k hk ho => hn k ?_ ho⟩
    rw [← AList.lookup_isSome, ← hs k ho, AList.lookup_isSome]
    exact hk
  · refine .inr ⟨hq, bytes, d, ?_, hd, ht, hz, he, hi.congr hsame, hlo, hhi⟩
    rw [hs _ rfl]
    exact hl

section

variable (doubles : Doubles) (others : StagingArea → RedisRequest → Except Fault Bytes)

/-- Each command answers as the list does. -/
theorem yields_run {key : Bytes} {total : Nat} (htotal : total < 2 ^ 62) (c : DequeCommand)
    (rest : List DequeCommand) (q : List Bytes) (s : StagingArea)
    (h : Pending key total (c :: rest) q s) :
    Yields (c.run key) s
      (fun reply s' => reply = (c.answer q).1 ∧ Pending key total rest (c.answer q).2 s')
      fun _ => False := by
  obtain ⟨pushes, hsum, hrep⟩ := h
  rw [List.map_cons, List.sum_cons] at hsum
  cases c <;> simp only [DequeCommand.pushes] at hsum <;> unfold DequeCommand.run <;>
    rw [yields_bind]
  case pushFront item items =>
    refine (yields_dequePush hrep .kLeft (List.cons_ne_nil item items)
      (by rw [List.length_cons]; omega)).mono fun r s' hr => ?_
    obtain ⟨rfl, hr'⟩ := hr
    rw [Direction.length_push, List.length_cons]
    exact ⟨rfl, _, by rw [List.length_cons]; omega, hr'⟩
  case pushBack item items =>
    refine (yields_dequePush hrep .kRight (List.cons_ne_nil item items)
      (by rw [List.length_cons]; omega)).mono fun r s' hr => ?_
    obtain ⟨rfl, hr'⟩ := hr
    rw [Direction.length_push, List.length_cons]
    exact ⟨rfl, _, by rw [List.length_cons]; omega, hr'⟩
  case popFront =>
    refine (yields_dequePopFront hrep (by omega)).mono fun r s' hr => ?_
    exact ⟨hr.1, _, by omega, hr.2⟩
  case popBack =>
    refine (yields_dequePopBack hrep (by omega)).mono fun r s' hr => ?_
    exact ⟨hr.1, _, by omega, hr.2⟩
  case trimFront maxToKeep =>
    refine (yields_dequeTrimFront rfl hrep (by omega)).mono fun r s' hr => ?_
    exact ⟨hr.1, _, by omega, hr.2⟩
  case clear =>
    have hzero : parseInt64 (ascii "0") = some 0 := by decide +kernel
    refine (yields_dequeTrimFront hzero hrep (by omega)).mono fun r s' hr => ?_
    exact ⟨hr.1, _, by omega, hr.2⟩
  case len =>
    refine (yields_dequeLen hrep).mono fun r s' hr => ?_
    obtain ⟨rfl, rfl⟩ := hr
    exact ⟨rfl, _, by omega, hrep⟩
  case del =>
    refine (yields_delDeque hrep).mono fun r s' hr => ?_
    obtain ⟨rfl, hr'⟩ := hr
    exact ⟨rfl, _, by omega, hr'⟩

/-- A command adds what it pushes, at most. -/
theorem length_answer (c : DequeCommand) (q : List Bytes) :
    (c.answer q).2.length ≤ q.length + c.pushes := by
  cases c with
  | trimFront maxToKeep =>
    simp only [DequeCommand.answer, DequeCommand.trim]
    split
    · simp
    · split
      · simp
      · simp
        omega
  | _ => simp [DequeCommand.answer, DequeCommand.trim, DequeCommand.pushes] <;> omega

/-- The same, beside an invariant that the commands keep. -/
theorem yields_dequeCommand {key : Bytes} {total : Nat} (htotal : total < 2 ^ 62)
    {I : StagingArea → Prop} (hkeeps : ∀ c : DequeCommand, Keeps I (fun _ => True) (c.run key))
    (request : RedisRequest) (c : DequeCommand) (rest : List DequeCommand) (q : List Bytes)
    (s : StagingArea) (hspell : c.Spells key request)
    (h : Pending key total (c :: rest) q s ∧
      q.length + ((c :: rest).map DequeCommand.pushes).sum ≤ total ∧ I s) :
    Yields (dispatchOne doubles (dispatchRead others) request) s
      (fun reply s' => reply = (c.answer q).1 ∧ Pending key total rest (c.answer q).2 s' ∧
        (c.answer q).2.length + (rest.map DequeCommand.pushes).sum ≤ total ∧ I s')
      fun _ => False := by
  obtain ⟨h, hlength, hI⟩ := h
  have hlen : (c.answer q).2.length + (rest.map DequeCommand.pushes).sum ≤ total := by
    have := length_answer c q
    rw [List.map_cons, List.sum_cons] at hlength
    omega
  have ht := getCommandType_of_table hspell.1 c.command_ne.1 c.type_of_row
  have hy := yields_run htotal c rest q s h
  by_cases hc : c = .len
  · subst hc
    obtain ⟨pushes, hsum, hrep⟩ := h
    have hread : dispatchRead others s request = .ok (Formatter.integer q.length) := by
      rw [DequeCommand.dispatchRead_eq_run others hspell]
      rcases hrun : DequeCommand.len.run key s with e | ⟨r, s'⟩
      · exact (hy.of_error hrun).elim
      · obtain ⟨rfl, -⟩ := hy.of_ok hrun
        exact bind_of_ok hrun _
    unfold Yields
    rw [dispatchOne_of_read doubles _ (by rw [ht]; nofun), hread]
    exact ⟨rfl, ⟨pushes, by simpa [DequeCommand.pushes] using hsum, hrep⟩, hlen, hI⟩
  · have hw : c.type = .WRITE := by
      cases c <;> first | rfl | exact absurd rfl hc
    rw [dispatchOne_of_write doubles _ (ht.trans hw) (by rw [hspell.1]; exact c.command_ne.2),
      DequeCommand.dispatchCommand_eq_run doubles hspell hw]
    exact (hy.and (hkeeps c s hI)).mono fun reply s' hr => ⟨hr.1.1, hr.1.2, hlen, hr.2⟩

/-- Batches on the deque of a key that does not exist yet, beside an invariant that does not
look at the key, nor at what is applied. -/
theorem applyBatches_deque {key : Bytes} {mode : Mode} {m : Machine} (hm : mode.Suits m)
    (hn : ∀ k ∈ m.store, k.owner ≠ some key) {txs : List Transaction}
    {batches : List (List DequeCommand)}
    (hs : List.Forall₂ (SpellsBatch fun request c => c.Spells key request) txs batches)
    (hp : (batches.flatten.map DequeCommand.pushes).sum < 2 ^ 62) {I : StagingArea → Prop}
    (hI : I (stage m)) (hkeeps : ∀ c : DequeCommand, Keeps I (fun _ => True) (c.run key))
    (hcommits : ∀ s s' : StagingArea, I s →
      (∀ k ≠ .lastApplied, s'.store.lookup k = s.store.lookup k) → I s') :
    ∃ m', applyBatches doubles (dispatchRead others) mode m txs =
        .ok ((answerBatches DequeCommand.answer txs batches []).1, m') ∧
      Represents m'.store key (answerBatches DequeCommand.answer txs batches []).2
        (batches.flatten.map DequeCommand.pushes).sum ∧
      (answerBatches DequeCommand.answer txs batches []).2.length ≤
        (batches.flatten.map DequeCommand.pushes).sum ∧ I (stage m') := by
  generalize htotal : (batches.flatten.map DequeCommand.pushes).sum = total at hp
  have hstart : Pending key total batches.flatten [] (stage m) ∧
      ([] : List Bytes).length + (batches.flatten.map DequeCommand.pushes).sum ≤ total ∧
      I (stage m) := ⟨⟨0, by omega, .inl ⟨rfl, hn⟩⟩,
        by rw [htotal, List.length_nil, Nat.zero_add], hI⟩
  have hcommit : ∀ rest (q : List Bytes) s s', (Pending key total rest q s ∧
      q.length + (rest.map DequeCommand.pushes).sum ≤ total ∧ I s) →
      s'.expirationCache = s.expirationCache →
      (∀ k ≠ .lastApplied, s'.store.lookup k = s.store.lookup k) → s'.batch = ∅ →
      s'.revisionTracker = ∅ → Pending key total rest q s' ∧
      q.length + (rest.map DequeCommand.pushes).sum ≤ total ∧ I s' := by
    intro rest q s s' h _ hstore _ _
    obtain ⟨⟨pushes, h2, h3⟩, h4, h5⟩ := h
    refine ⟨⟨pushes, h2, h3.congr fun k ho => hstore k ?_⟩, h4, hcommits s s' h5 hstore⟩
    rintro rfl
    cases ho
  rcases applyBatches_answers doubles (dispatchRead others)
    (yields_dequeCommand doubles others hp hkeeps) hcommit hm hs hstart with
    ⟨m', h1, ⟨pushes, h2, h3⟩, h4, h5⟩ | ⟨_, h, _⟩
  · refine ⟨m', h1, ?_, by simpa using h4, h5⟩
    rw [List.map_nil, List.sum_nil, Nat.add_zero] at h2
    rw [← h2]
    exact h3
  · exact h.elim

theorem keeps_true {α : Type} (c : StagingM α) :
    Keeps (fun _ => True) (fun _ => True) c := by
  intro s _
  unfold Yields
  split <;> trivial

/-- Commands on the deque of a key that does not exist yet, in batches of any size: none
fails, the replies are those of a list, and the store holds what the list holds, with its
first item just after `startIndex` and its last one just before `endIndex`. No other deque has
records under the raw prefix of the key: the store tells keys apart that rocksdb would not. -/
theorem a_deque_is_a_double_ended_queue (key : Bytes) (mode : Mode) (m : Machine)
    (hm : mode.Suits m) (hn : ∀ k ∈ m.store, k.owner ≠ some key) (txs : List Transaction)
    (batches : List (List DequeCommand))
    (hs : List.Forall₂ (SpellsBatch fun request c => c.Spells key request) txs batches)
    (hp : (batches.flatten.map DequeCommand.pushes).sum < 2 ^ 62) :
    ∃ m', applyBatches doubles (dispatchRead others) mode m txs =
        .ok ((answerBatches DequeCommand.answer txs batches []).1, m') ∧
      Represents m'.store key (answerBatches DequeCommand.answer txs batches []).2
        (batches.flatten.map DequeCommand.pushes).sum := by
  obtain ⟨m', h1, h2, -⟩ := applyBatches_deque doubles others hm hn hs hp
    (I := fun _ => True) trivial (fun _ => keeps_true _) fun _ _ _ _ => trivial
  exact ⟨m', h1, h2⟩

end

theorem a_deque_of_two_gives_its_last_item :
    let m : Machine := { store := ∅, expirationCache := [], lastApplied := 0 }
    ∃ tx tx' : Transaction, tx.requests = [[ascii "DEQUE_PUSH_BACK", ascii "q", ascii "a", ascii "b"],
        [ascii "deque-len", ascii "q"]] ∧ tx'.requests = [[ascii "DEQUE_POP_BACK", ascii "q"]] ∧
      ∃ m', applyBatches wholeDoubles (dispatchRead readsNothing) .standalone m [tx, tx'] =
          .ok ([ascii "*2\r\n:2\r\n:2\r\n", ascii "$1\r\nb\r\n"], m') ∧
        Represents m'.store (ascii "q") [ascii "a"] 2 := by
  intro m
  let push : RedisRequest := [ascii "DEQUE_PUSH_BACK", ascii "q", ascii "a", ascii "b"]
  let len : RedisRequest := [ascii "deque-len", ascii "q"]
  let pop : RedisRequest := [ascii "DEQUE_POP_BACK", ascii "q"]
  obtain ⟨hpush, hlen, hpop⟩ :
      DequeCommand.Spells (ascii "q") push (.pushBack (ascii "a") [ascii "b"]) ∧
      DequeCommand.Spells (ascii "q") len .len ∧ DequeCommand.Spells (ascii "q") pop .popBack := by
    decide +kernel
  refine ⟨.ofRequests [push, len] false (by decide +kernel),
    .ofRequests [pop] true (by decide +kernel), rfl, rfl, ?_⟩
  exact a_deque_is_a_double_ended_queue wholeDoubles readsNothing (ascii "q") .standalone m rfl
    (fun k hk => absurd hk (AList.notMem_empty k)) _
    [[.pushBack (ascii "a") [ascii "b"], .len], [.popBack]]
    (.cons ⟨nofun, .cons hpush (.cons hlen .nil)⟩ (.cons ⟨nofun, .cons hpop .nil⟩ .nil)) (by decide)

end quarkdb
