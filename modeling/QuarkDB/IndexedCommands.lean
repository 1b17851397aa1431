-- The commands on deques, locality hashes and leases keep the descriptors true, and
-- so do those on keys of any type.
import QuarkDB.PlainCommands

namespace quarkdb

open Endian StateMachine StagingArea Tally Outcome

/-! ## Deques -/

/-- The index that the next item takes at one end of a deque. -/
def Direction.next (direction : Direction) (first last : Nat) : Nat :=
  match direction with
  | .kLeft => first - 1
  | .kRight => last

/-- There are indices for that many items more. -/
def Direction.Fits (direction : Direction) (first last added : Nat) : Prop :=
  match direction with
  | .kLeft => added < first
  | .kRight => last + added < 2 ^ 64

/-- A deque after that many items were added at one end. -/
def Direction.Grown (direction : Direction) (store : Store) (key : Bytes)
    (first last added : Nat) : Prop :=
  match direction with
  | .kLeft => Deque store key (first - added) last
  | .kRight => Deque store key first (last + added)

/-- The two indices of a descriptor stand just outside of the items. -/
def Direction.Encloses (direction : Direction) (d : KeyDescriptor) (first last added : Nat) :
    Prop :=
  match direction with
  | .kLeft => d.startIndex.toNat + added + 1 = first ∧ d.endIndex.toNat = last
  | .kRight => d.startIndex.toNat + 1 = first ∧ d.endIndex.toNat = last + added

section

variable {key : Bytes} {desc : Option Bytes} {n : Nat} {s : StagingArea} {op : WriteOperation}
  {direction : Direction} {first last added : Nat}

theorem Direction.Grown.push {store : Store} (h : direction.Grown store key first last added)
    (hf : direction.Fits first last (added + 1)) (value : Bytes) :
    direction.Grown (store.insert (.field .kDeque key (unsignedIntToBinaryString
      (direction.walk (UInt64.ofNat (direction.next first last)) added))) value) key first last
      (added + 1) := by
  cases direction with
  | kLeft =>
    simp only [Direction.Grown, Direction.Fits, Direction.next, Direction.walk] at h hf ⊢
    have hi : UInt64.ofNat (first - 1) - UInt64.ofNat added = UInt64.ofNat (first - (added + 1)) := by
      rw [← UInt64.ofNat_sub (by omega)]
      congr 1
      omega
    rw [hi]
    apply Deque.insert_first
    rwa [show first - (added + 1) + 1 = first - added by omega]
  | kRight =>
    simp only [Direction.Grown, Direction.Fits, Direction.next, Direction.walk] at h hf ⊢
    rw [← UInt64.ofNat_add]
    exact h.insert_last value (by omega)

theorem does_pushLoop (items : List Bytes) {s : StagingArea} {added : Nat}
    (ho : Opened key .kDeque desc op) (hb : Busy key desc (n + items.length) s)
    (hg : direction.Grown s.store key first last added)
    (hf : direction.Fits first last (added + items.length)) :
    Does (pushLoop op direction (UInt64.ofNat (direction.next first last)) added items) s
      fun _ s' => Busy key desc n s' ∧
        direction.Grown s'.store key first last (added + items.length) := by
  induction items generalizing s added with
  | nil => exact ⟨hb, hg⟩
  | cons item rest ih =>
    have hbear : op.keyinfo.keyType.bearsFields = true := by
      rw [ho.keyType_eq]
      rfl
    rw [List.length_cons] at hb hf ⊢
    unfold pushLoop
    rw [does_bind, WriteOperation.writeField_eq ho.valid hbear, does_put, ho.redisKey_eq,
      ho.keyType_eq]
    have hb1 : Busy key desc (n + rest.length + 1) s := hb.mono (by omega)
    have hf1 : direction.Fits first last (added + 1) := by
      cases direction <;> simp only [Direction.Fits] at hf ⊢ <;> omega
    rw [show added + (rest.length + 1) = added + 1 + rest.length by omega] at hf ⊢
    exact ih (hb1.putIn rfl rfl item) (hg.push hf1 item) hf

/-- Whatever the indices are, the loop comes to its end. -/
theorem does_pushLoop_anyway (items : List Bytes) {s : StagingArea} {added : Nat}
    {listIndex : UInt64} (ho : Opened key .kDeque desc op) :
    Does (pushLoop op direction listIndex added items) s fun _ _ => True := by
  induction items generalizing s added with
  | nil => trivial
  | cons item rest ih =>
    have hbear : op.keyinfo.keyType.bearsFields = true := by
      rw [ho.keyType_eq]
      rfl
    unfold pushLoop
    rw [does_bind, WriteOperation.writeField_eq ho.valid hbear, does_put]
    exact ih

/-- A descriptor with its indices in the wrong order is not written. -/
theorem does_finalize_disordered {newsize : Int} {force : Bool}
    {post : Unit → StagingArea → Prop} (hv : op.isValid = true) (h0 : 0 < newsize)
    (hn : op.keyinfo.sz ≠ newsize) (hl : KeyDescriptor.layout op.keyinfo.keyType = .indices)
    (hd : op.keyinfo.endIndex < op.keyinfo.startIndex) : Does (op.finalize newsize force) s post := by
  have hs : KeyDescriptor.serialize { op.keyinfo with sz := newsize } =
      .error (.assertion "startIndex <= endIndex") := by
    unfold KeyDescriptor.serialize
    dsimp only
    rw [hl]
    dsimp only
    unfold qdbAssert
    rw [decide_eq_false (UInt64.not_le.mpr hd)]
    rfl
  unfold WriteOperation.finalize
  rw [WriteOperation.assertWritable_valid hv, pure_bind, if_neg (by omega), if_neg (by omega),
    if_pos (.inl hn), hs]
  exact noMiscount_assertion _

theorem Direction.Grown.size_lt {store : Store} (h : direction.Grown store key first last added)
    (hl : first ≤ last) (hf : direction.Fits first last added)
    (hr : store.keys.length < 2 ^ 63) : last - first + added < 2 ^ 63 := by
  have hc := count_le store (isField .kDeque key)
  cases direction with
  | kLeft =>
    simp only [Direction.Grown, Direction.Fits] at h hf
    have := h.size_eq
    omega
  | kRight =>
    simp only [Direction.Grown] at h
    have := h.size_eq
    omega

theorem Direction.Grown.data {store : Store} {d : KeyDescriptor}
    (h : direction.Grown store key first last added) (hf : direction.Fits first last added)
    (ht : d.keyType = .kDeque) (hz : d.sz = last - first + added)
    (hd : direction.Encloses d first last added) : Data store key d := by
  cases direction with
  | kLeft =>
    simp only [Direction.Grown, Direction.Fits, Direction.Encloses] at h hf hd
    refine h.data ht ?_ fun _ => ?_ <;> omega
  | kRight =>
    simp only [Direction.Grown, Direction.Fits, Direction.Encloses] at h hf hd
    refine h.data ht ?_ fun _ => ?_ <;> omega

/-- Items that have indices are added at one end. -/
theorem does_push {items : List Bytes} (hi : Inv (n + items.length + 1) s)
    (ho : Opened key .kDeque (s.store.lookup (.descriptor key)) op) (hne : items ≠ [])
    (hg : direction.Grown s.store key first last 0)
    (hf : direction.Fits first last items.length) (hl : first ≤ last)
    (hz : op.keySize = last - first) {d : KeyDescriptor} (ht : d.keyType = .kDeque)
    (hsz : d.sz = op.keySize) (hd : direction.Encloses d first last items.length)
    {listIndex : UInt64} (hx : listIndex = UInt64.ofNat (direction.next first last))
    {reply : Status × Int} :
    Does (do
      pushLoop op direction listIndex 0 items
      { op with keyinfo := d }.finalize (sum64 op.keySize items.length) false
      return reply) s fun _ s' => Inv n s' := by
  have hpos : 0 < items.length := List.length_pos_iff.mpr hne
  subst hx
  rw [does_bind]
  have hb : Busy key (s.store.lookup (.descriptor key)) (n + 1 + items.length) s :=
    (hi.busy key).mono (by omega)
  refine (does_pushLoop items ho hb hg (by rwa [Nat.zero_add])).mono fun _ s' h => ?_
  obtain ⟨hb', hg'⟩ := h
  rw [Nat.zero_add] at hg'
  have hr := hb'.room
  have hbound := hg'.size_lt hl hf (by omega)
  have hsum : sum64 op.keySize items.length = last - first + items.length := by
    rw [sum64_of_fits] <;> omega
  rw [hsum, does_bind]
  refine (does_finalize (by exact ho.redisKey_eq) (by exact ho.valid) hb' ?_ (by omega)
    ?_ ?_).mono fun _ s'' h => h.1
  · exact hg'.data hf ht rfl hd
  · intro he
    dsimp only at he
    omega
  · intro he
    dsimp only at he
    omega

/-- Items that have no indices left end in a descriptor that is not written. -/
theorem does_push_wrapped {items : List Bytes}
    (ho : Opened key .kDeque (s.store.lookup (.descriptor key)) op) (h0 : 0 ≤ op.keySize)
    (hlt : op.keySize + items.length < 2 ^ 63) (hpos : 0 < items.length) {d : KeyDescriptor}
    (ht : d.keyType = .kDeque) (hsz : d.sz = op.keySize) (hd : d.endIndex < d.startIndex)
    {listIndex : UInt64} {reply : Status × Int} {post : Status × Int → StagingArea → Prop} :
    Does (do
      pushLoop op direction listIndex 0 items
      { op with keyinfo := d }.finalize (sum64 op.keySize items.length) false
      return reply) s post := by
  rw [does_bind]
  refine (does_pushLoop_anyway items ho).mono fun _ s' _ => ?_
  rw [sum64_of_fits (by omega) hlt, does_bind]
  refine does_finalize_disordered (by exact ho.valid) (by omega) ?_ ?_ hd
  · dsimp only
    omega
  · dsimp only
    rw [ht]
    rfl

theorem toNat_sub_steps {x : UInt64} {steps : Nat} (h : steps ≤ x.toNat) :
    (x - UInt64.ofNat steps).toNat = x.toNat - steps := by
  have hx := x.toNat_lt
  have hs : (UInt64.ofNat steps).toNat = steps := by
    rw [UInt64.toNat_ofNat']
    omega
  rw [UInt64.toNat_sub_of_le, hs]
  rw [UInt64.le_iff_toNat_le, hs]
  exact h

theorem toNat_add_steps {x : UInt64} {steps : Nat} (h : x.toNat + steps < 2 ^ 64) :
    (x + UInt64.ofNat steps).toNat = x.toNat + steps := by
  rw [UInt64.toNat_add, UInt64.toNat_ofNat']
  omega

theorem setListIndex_keyType (d : KeyDescriptor) (direction : Direction) (index : UInt64) :
    (d.setListIndex direction index).keyType = d.keyType := by
  cases direction <;> rfl

theorem setListIndex_sz (d : KeyDescriptor) (direction : Direction) (index : UInt64) :
    (d.setListIndex direction index).sz = d.sz := by
  cases direction <;> rfl

theorem getListIndex_eq_next (d : KeyDescriptor) (direction : Direction) :
    d.getListIndex direction =
      UInt64.ofNat (direction.next (d.startIndex.toNat + 1) d.endIndex.toNat) := by
  cases direction with
  | kLeft =>
    show d.startIndex = UInt64.ofNat (d.startIndex.toNat + 1 - 1)
    rw [Nat.add_sub_cancel, UInt64.ofNat_toNat]
  | kRight => exact UInt64.ofNat_toNat.symm

theorem Deque.grown {store : Store} (h : Deque store key first last) (direction : Direction) :
    direction.Grown store key first last 0 := by
  cases direction with
  | kLeft => exact h
  | kRight => exact h

theorem encloses_setListIndex {d : KeyDescriptor}
    (hf : direction.Fits (d.startIndex.toNat + 1) d.endIndex.toNat added) :
    direction.Encloses (d.setListIndex direction (direction.walk (d.getListIndex direction) added))
      (d.startIndex.toNat + 1) d.endIndex.toNat added := by
  cases direction with
  | kLeft =>
    simp only [Direction.Fits, Direction.Encloses, KeyDescriptor.setListIndex,
      KeyDescriptor.getListIndex, Direction.walk] at hf ⊢
    rw [toNat_sub_steps (by omega)]
    exact ⟨by omega, trivial⟩
  | kRight =>
    simp only [Direction.Fits, Direction.Encloses, KeyDescriptor.setListIndex,
      KeyDescriptor.getListIndex, Direction.walk] at hf ⊢
    exact ⟨trivial, toNat_add_steps hf⟩

/-- Indices that wrap around come out in the wrong order. -/
theorem disordered_of_wrapped {d : KeyDescriptor}
    (hf : ¬ direction.Fits (d.startIndex.toNat + 1) d.endIndex.toNat added)
    (hs : d.startIndex.toNat + 1 ≤ d.endIndex.toNat)
    (ha : d.endIndex.toNat - d.startIndex.toNat + added ≤ 2 ^ 63) :
    (d.setListIndex direction (direction.walk (d.getListIndex direction) added)).endIndex <
      (d.setListIndex direction (direction.walk (d.getListIndex direction) added)).startIndex := by
  have h1 := d.startIndex.toNat_lt
  have h2 := d.endIndex.toNat_lt
  rw [UInt64.lt_iff_toNat_lt]
  cases direction with
  | kLeft =>
    simp only [Direction.Fits, KeyDescriptor.setListIndex, KeyDescriptor.getListIndex,
      Direction.walk] at hf ⊢
    rw [UInt64.toNat_sub, UInt64.toNat_ofNat']
    omega
  | kRight =>
    simp only [Direction.Fits, KeyDescriptor.setListIndex, KeyDescriptor.getListIndex,
      Direction.walk] at hf ⊢
    rw [UInt64.toNat_add, UInt64.toNat_ofNat']
    omega

theorem does_dequePush {items : List Bytes} (hi : Inv (n + items.length + 1) s)
    (hne : items ≠ []) (direction : Direction) (key : Bytes) :
    Does (dequePush direction key items) s fun _ s' => Inv n s' := by
  unfold dequePush
  refine does_withOperation hi nofun (fun op ho hd => ?_) (hi.mono (by omega))
  have hpos : 0 < items.length := List.length_pos_iff.mpr hne
  have hroom := hi.room
  dsimp only
  by_cases hz : op.keySize = 0
  · -- the first items of a new deque
    rw [if_pos hz]
    have hnone := ho.none_of_size_zero (hi.ok key) nofun hz
    have hq : ∀ {j : Nat}, j ≤ 2 ^ 64 → Deque s.store key j j :=
      Deque.of_nothing ((hi.ok key).nothing hnone)
    have hk : op.keyinfo = { keyType := .kDeque } := (ho.fresh hnone).2 nofun
    have hinit : kIndexInitialValue.toNat = 2 ^ 63 - 1 := by decide +kernel
    have hofNat : kIndexInitialValue = UInt64.ofNat (2 ^ 63 - 1) := by decide +kernel
    cases direction with
    | kLeft =>
      refine does_push hi ho hne ((hq (j := 2 ^ 63) (by omega)).grown .kLeft) ?_ (Nat.le_refl _)
        ?_ ?_ ?_ ?_ ?_
      · show items.length < 2 ^ 63
        omega
      · omega
      · rw [hk]
        rfl
      · rfl
      · rw [hk]
        show (kIndexInitialValue - UInt64.ofNat items.length).toNat + items.length + 1 = 2 ^ 63 ∧
          (kIndexInitialValue + UInt64.ofNat 1).toNat = 2 ^ 63
        rw [toNat_sub_steps (by omega), toNat_add_steps (by omega)]
        omega
      · rw [hk]
        exact hofNat
    | kRight =>
      refine does_push hi ho hne ((hq (j := 2 ^ 63 - 1) (by omega)).grown .kRight) ?_ (Nat.le_refl _)
        ?_ ?_ ?_ ?_ ?_
      · show 2 ^ 63 - 1 + items.length < 2 ^ 64
        omega
      · omega
      · rw [hk]
        rfl
      · rfl
      · rw [hk]
        show (kIndexInitialValue - UInt64.ofNat 1).toNat + 1 = 2 ^ 63 - 1 ∧
          (kIndexInitialValue + UInt64.ofNat items.length).toNat = 2 ^ 63 - 1 + items.length
        rw [toNat_sub_steps (by omega), toNat_add_steps (by omega)]
        omega
      · rw [hk]
        exact hofNat
  · rw [if_neg hz]
    obtain ⟨hq, hs⟩ := hd.deque ho.keyType_eq hz
    have hse := hq.window.ordered
    have hc := count_le s.store (isField .kDeque key)
    have hsz := hq.size_eq
    have hks : op.keySize = op.keyinfo.sz := rfl
    by_cases hf : direction.Fits (op.keyinfo.startIndex.toNat + 1) op.keyinfo.endIndex.toNat
        items.length
    · refine does_push hi ho hne (hq.grown direction) hf hse ?_ ?_ ?_ (encloses_setListIndex hf)
        (getListIndex_eq_next _ _)
      · omega
      · rw [setListIndex_keyType]
        exact ho.keyType_eq
      · rw [setListIndex_sz]
        rfl
    · refine does_push_wrapped ho ?_ ?_ hpos ?_ ?_ (disordered_of_wrapped hf hse ?_)
      · omega
      · omega
      · rw [setListIndex_keyType]
        exact ho.keyType_eq
      · rw [setListIndex_sz]
        rfl
      · omega

theorem does_getItem (ho : Opened key .kDeque desc op) {index : UInt64}
    {post : Option Bytes → StagingArea → Prop}
    (h : post (s.store.lookup (itemKey key index.toNat)) s) :
    Does (op.getField (unsignedIntToBinaryString index)) s post := by
  rw [WriteOperation.getField_eq ho.valid (by rw [ho.keyType_eq]; rfl), ho.redisKey_eq,
    ho.keyType_eq, does_get]
  rwa [itemKey, UInt64.ofNat_toNat] at h

theorem does_deleteItem (ho : Opened key .kDeque desc op) {index : UInt64}
    {post : Bool → StagingArea → Prop}
    (h : itemKey key index.toNat ∈ s.store → post true (s.delIn (itemKey key index.toNat)))
    (hn : itemKey key index.toNat ∉ s.store → post false s) :
    Does (op.deleteField (unsignedIntToBinaryString index)) s post := by
  rw [itemKey, UInt64.ofNat_toNat] at h hn
  rw [WriteOperation.deleteField_eq ho.valid (by rw [ho.keyType_eq]; rfl), ho.redisKey_eq,
    ho.keyType_eq]
  exact does_deleteKey h hn

/-- The item at one end goes, and the index takes its place. -/
theorem Data.pop {store : Store} {d : KeyDescriptor} (h : Data store key d)
    (ht : d.keyType = .kDeque) (hz : d.sz ≠ 0) (direction : Direction) {victim : UInt64}
    (hv : victim = (flipDirection direction).walk (d.getListIndex direction) 1) :
    Data (store.erase (itemKey key victim.toNat)) key
      { d.setListIndex direction victim with sz := d.sz - 1 } := by
  obtain ⟨hq, hs⟩ := h.deque ht hz
  have h0 := h.size_nonneg
  have hlt := d.endIndex.toNat_lt
  subst hv
  cases direction with
  | kLeft =>
    have hn : (d.startIndex + UInt64.ofNat 1).toNat = d.startIndex.toNat + 1 :=
      toNat_add_steps (by omega)
    have hq' := hq.erase_first (by omega)
    rw [← hn] at hq'
    refine hq'.data ht ?_ fun _ => ⟨rfl, rfl⟩
    show (((d.startIndex + UInt64.ofNat 1).toNat + 1 : Nat) : Int) + (d.sz - 1) = _
    omega
  | kRight =>
    have hn : (d.endIndex - UInt64.ofNat 1).toNat = d.endIndex.toNat - 1 :=
      toNat_sub_steps (by omega)
    rw [show d.endIndex.toNat = d.endIndex.toNat - 1 + 1 by omega] at hq
    have hq' := hq.erase_last (by omega)
    rw [← hn] at hq'
    refine hq'.data ht ?_ fun _ => ⟨rfl, rfl⟩
    show ((d.startIndex.toNat + 1 : Nat) : Int) + (d.sz - 1) = _
    omega

theorem does_dequePop (hi : Inv (n + 1) s) (direction : Direction) (key : Bytes) :
    Does (dequePop direction key) s fun _ s' => Inv n s' := by
  unfold dequePop
  refine does_withOperation hi nofun (fun op ho hd => ?_) (hi.mono (by omega))
  have hroom := hi.room
  by_cases hz : op.keySize = 0
  · rw [if_pos hz, does_bind, ← hz]
    exact (does_finalize_same hi ho nofun nofun).mono fun _ s' h => h.1.mono (by omega)
  · have hsz : op.keyinfo.sz ≠ 0 := hz
    rw [if_neg hz]
    dsimp only
    rw [does_bind]
    refine does_getItem ho ?_
    split
    · exact noMiscount_assertion _
    rw [does_bind]
    refine does_deleteItem ho (fun _ => ?_) fun _ => ?_
    · rw [does_bind]
      refine does_assertThat fun _ => ?_
      have hd' := hd.pop ho.keyType_eq hsz direction rfl
      have hc := count_le s.store (isField .kDeque key)
      obtain ⟨hq, hends⟩ := hd.deque ho.keyType_eq hsz
      have hs := hq.size_eq
      have h0 := hd.size_nonneg
      have hks : op.keySize = op.keyinfo.sz := rfl
      rw [does_bind, sum64_of_fits (by omega) (by omega)]
      refine (does_finalize (by exact ho.redisKey_eq) (by exact ho.valid)
        ((hi.busy key).delIn rfl rfl) ?_ ?_ ?_ ?_).mono fun _ s' h => h.1
      · exact hd'
      · omega
      · dsimp only
        rw [setListIndex_sz]
        omega
      · dsimp only
        rw [setListIndex_sz]
        omega
    · rw [does_bind]
      exact does_assertThat nofun

theorem does_trimLoop (toRemove : Nat) {s : StagingArea} {first : Nat}
    (ho : Opened key .kDeque desc op) (hb : Busy key desc n s) (hq : Deque s.store key first last)
    (hl : first + toRemove ≤ last) :
    Does (trimLoop op toRemove (UInt64.ofNat first)) s fun _ s' =>
      Busy key desc n s' ∧ Deque s'.store key (first + toRemove) last := by
  induction toRemove generalizing s first with
  | zero => exact ⟨hb, hq⟩
  | succ toRemove ih =>
    have hbound := hq.window.bounded
    have hf : (UInt64.ofNat first).toNat = first := by
      rw [UInt64.toNat_ofNat']
      omega
    unfold trimLoop
    rw [does_bind]
    refine does_deleteItem ho (fun _ => ?_) fun _ => ?_
    · rw [does_bind, hf]
      refine does_assertThat fun _ => ?_
      have he : UInt64.ofNat first + 1 = UInt64.ofNat (first + 1) := UInt64.ofNat_add first 1 |>.symm
      rw [he, show first + (toRemove + 1) = first + 1 + toRemove by omega]
      exact ih (hb.delIn rfl rfl) (hq.erase_first (by omega)) (by omega)
    · rw [does_bind]
      exact does_assertThat nofun

theorem does_dequeTrimFront (hi : Inv (n + 1) s) (key maxToKeepStr : Bytes) :
    Does (dequeTrimFront key maxToKeepStr) s fun _ s' => Inv n s' := by
  unfold dequeTrimFront
  split
  · exact hi.mono (by omega)
  rename_i maxToKeep _
  split
  · exact hi.mono (by omega)
  refine does_withOperation hi nofun (fun op ho hd => ?_) (hi.mono (by omega))
  dsimp only
  split
  · exact hi.mono (by omega)
  rename_i hmax hpos
  have hroom := hi.room
  obtain ⟨hq, hends⟩ := hd.deque ho.keyType_eq (by omega)
  have hsz := hq.size_eq
  have hlt := op.keyinfo.endIndex.toNat_lt
  have hc := count_le s.store (isField .kDeque key)
  generalize hr : (op.keyinfo.sz - maxToKeep).toNat = toRemove
  have hfirst : op.keyinfo.startIndex + 1 = UInt64.ofNat (op.keyinfo.startIndex.toNat + 1) := by
    rw [UInt64.ofNat_add, UInt64.ofNat_toNat]
    rfl
  have hstart : (op.keyinfo.startIndex + UInt64.ofNat toRemove).toNat =
      op.keyinfo.startIndex.toNat + toRemove := toNat_add_steps (by omega)
  have hleft : (op.keyinfo.endIndex - (op.keyinfo.startIndex + UInt64.ofNat toRemove) - 1).toNat =
      op.keyinfo.endIndex.toNat - (op.keyinfo.startIndex.toNat + toRemove) - 1 := by
    rw [UInt64.toNat_sub, UInt64.toNat_sub, hstart]
    show (2 ^ 64 - 1 + _) % 2 ^ 64 = _
    omega
  rw [hfirst, does_bind]
  refine (does_trimLoop toRemove ho (hi.busy key) hq (by omega)).mono fun _ s' hs' => ?_
  obtain ⟨hb, hq'⟩ := hs'
  rw [does_bind]
  refine does_assertThat fun _ => ?_
  rw [does_bind, hleft, signed_of_fits (by omega) (by omega)]
  refine (does_finalize (by exact ho.redisKey_eq) (by exact ho.valid) hb ?_ ?_ ?_ ?_).mono
    fun _ s'' h => h.1
  · refine hq'.data ho.keyType_eq ?_ fun _ => ?_
    · dsimp only
      omega
    · dsimp only
      omega
  · omega
  · dsimp only
    omega
  · dsimp only
    omega

/-! ## Locality hashes -/

/-- An operation on a locality hash, with so many fields and so many indices by now. -/
structure Localizing (key : Bytes) (desc : Option Bytes) (op : WriteOperation) (n : Nat)
    (fields indices : Int) (s : StagingArea) : Prop where
  opened : Opened key .kLocalityHash desc op
  busy : Busy key desc n s
  localities : Localities s.store key fields indices

variable {fields indices : Int}

theorem does_localityFieldKey {hint field : Bytes} {post : StoreKey → StagingArea → Prop}
    (h : post (.localityField key (appendEscapedString [] hint ++ field)) s) :
    Does (throwing (localityFieldKey key hint field)) s post := by
  unfold localityFieldKey qdbAssert
  split
  · split
    · exact h
    · exact noMiscount_assertion _
  · exact noMiscount_assertion _

theorem does_localityIndexKey {field : Bytes} {post : StoreKey → StagingArea → Prop}
    (h : post (.localityIndex key field) s) :
    Does (throwing (localityIndexKey key field)) s post := by
  unfold localityIndexKey qdbAssert
  split
  · split
    · exact h
    · exact noMiscount_assertion _
  · exact noMiscount_assertion _

namespace Localizing

theorem mono {m : Nat} (h : Localizing key desc op n fields indices s) (hm : m ≤ n) :
    Localizing key desc op m fields indices s :=
  { h with busy := h.busy.mono hm }

theorem start (hi : Inv n s)
    (ho : Opened key .kLocalityHash (s.store.lookup (.descriptor key)) op) :
    Localizing key (s.store.lookup (.descriptor key)) op n op.keySize op.keySize s :=
  ⟨ho, hi.busy key, (ho.data nofun rfl (hi.ok key)).localities ho.keyType_eq⟩

theorem size_bounds (h : Localizing key desc op n fields indices s) :
    0 ≤ fields ∧ fields + n < 2 ^ 63 := by
  have hf := h.localities.fields_eq
  have hc := count_le s.store (isLocalityField key)
  have hr := h.busy.room
  omega

theorem fieldExists (h : Localizing key desc op n fields indices s) {hint field : Bytes}
    {post : Bool → StagingArea → Prop}
    (hfound : .localityField key (appendEscapedString [] hint ++ field) ∈ s.store → post true s)
    (hnot : .localityField key (appendEscapedString [] hint ++ field) ∉ s.store → post false s) :
    Does (op.localityFieldExists hint field) s post := by
  unfold WriteOperation.localityFieldExists
  rw [WriteOperation.assertLocality_valid h.opened.valid h.opened.keyType_eq, pure_bind, does_bind,
    h.opened.redisKey_eq]
  refine does_localityFieldKey ?_
  rw [does_keyExists]
  rcases hl : s.store.lookup (.localityField key (appendEscapedString [] hint ++ field)) with _ | v
  · rw [hl]
    exact hnot (AList.lookup_eq_none.mp hl)
  · rw [hl]
    exact hfound (AList.lookup_isSome.mp (by rw [hl]; rfl))

theorem writeField (h : Localizing key desc op (n + 1) fields indices s) {hint field value : Bytes}
    {post : Unit → StagingArea → Prop}
    (hpost : ∀ s', s' = s.putIn (.localityField key (appendEscapedString [] hint ++ field)) value →
      Localizing key desc op n (fields + if .localityField key (appendEscapedString [] hint ++ field)
        ∈ s.store then 0 else 1) indices s' → post () s') :
    Does (op.writeLocalityField hint field value) s post := by
  unfold WriteOperation.writeLocalityField
  rw [WriteOperation.assertLocality_valid h.opened.valid h.opened.keyType_eq, pure_bind, does_bind,
    h.opened.redisKey_eq]
  refine does_localityFieldKey ?_
  rw [does_put]
  exact hpost _ rfl ⟨h.opened, h.busy.putIn rfl rfl value, h.localities.insert_field _ value⟩

theorem deleteField (h : Localizing key desc op n fields indices s) {hint field : Bytes}
    {post : Bool → StagingArea → Prop}
    (hfound : ∀ s', s' = s.delIn (.localityField key (appendEscapedString [] hint ++ field)) →
      Localizing key desc op n (fields - 1) indices s' → post true s')
    (hnot : post false s) : Does (op.deleteLocalityField hint field) s post := by
  unfold WriteOperation.deleteLocalityField
  rw [WriteOperation.assertLocality_valid h.opened.valid h.opened.keyType_eq, pure_bind, does_bind,
    h.opened.redisKey_eq]
  refine does_localityFieldKey ?_
  refine does_deleteKey (fun hm => ?_) fun _ => hnot
  exact hfound _ rfl ⟨h.opened, h.busy.delIn rfl rfl, h.localities.erase_field hm⟩

theorem getIndex (h : Localizing key desc op n fields indices s) {field : Bytes}
    {post : Option Bytes → StagingArea → Prop}
    (hpost : post (s.store.lookup (.localityIndex key field)) s) :
    Does (op.getLocalityIndex field) s post := by
  unfold WriteOperation.getLocalityIndex
  rw [WriteOperation.assertLocality_valid h.opened.valid h.opened.keyType_eq, pure_bind, does_bind,
    h.opened.redisKey_eq]
  refine does_localityIndexKey ?_
  rw [does_get]
  exact hpost

theorem writeIndex (h : Localizing key desc op (n + 1) fields indices s) {field hint : Bytes}
    {post : Unit → StagingArea → Prop}
    (hpost : ∀ s', Localizing key desc op n fields
      (indices + if .localityIndex key field ∈ s.store then 0 else 1) s' → post () s') :
    Does (op.writeLocalityIndex field hint) s post := by
  unfold WriteOperation.writeLocalityIndex
  rw [WriteOperation.assertLocality_valid h.opened.valid h.opened.keyType_eq, pure_bind, does_bind,
    h.opened.redisKey_eq]
  refine does_localityIndexKey ?_
  rw [does_put]
  exact hpost _ ⟨h.opened, h.busy.putIn rfl rfl hint, h.localities.insert_index _ hint⟩

theorem finalize {size : Int} (h : Localizing key desc op (n + 1) size size s) {newsize : Int}
    (hn : newsize = size) : Does (op.finalize newsize false) s fun _ s' => Inv n s' := by
  subst hn
  have hb := h.size_bounds
  refine (does_finalize h.opened.redisKey_eq h.opened.valid h.busy
    (h.localities.data h.opened.keyType_eq) (by omega) ?_ ?_).mono fun _ s' h => h.1
  · intro _ _ bytes hd
    exact h.opened.known bytes hd
  · intro hz _ hnone
    refine ⟨hz.symm.trans (h.opened.fresh hnone).1, ?_⟩
    rw [h.opened.keyType_eq]
    nofun

end Localizing

/-- A new field is one field and one index more; an old one may move to another hint. -/
theorem does_lhsetInternal {size : Int} {field hint value : Bytes}
    (h : Localizing key desc op (n + 2) size size s) :
    Does (lhsetInternal op field hint value) s fun created s' =>
      Localizing key desc op n (size + if created then 1 else 0)
        (size + if created then 1 else 0) s' := by
  unfold lhsetInternal
  rw [does_bind]
  refine h.fieldExists (fun hm => ?_) fun hm => ?_
  · rw [if_pos rfl, does_bind]
    refine h.writeField fun s' _ h' => ?_
    rw [if_pos hm, Int.add_zero] at h'
    rw [does_pure, if_neg nofun, Int.add_zero]
    exact h'.mono (by omega)
  · rw [if_neg nofun, does_bind]
    refine h.getIndex ?_
    split
    · -- the old entry goes, and a new one comes in its place
      rename_i previousHint hp
      have hidx : .localityIndex key field ∈ s.store :=
        AList.lookup_isSome.mp (by rw [hp]; rfl)
      rw [does_bind]
      refine h.deleteField (fun s1 hs1 h1 => ?_) (does_bind.mpr (does_assertThat nofun))
      rw [does_bind]
      refine does_assertThat fun _ => ?_
      rw [does_bind]
      refine h1.writeField fun s2 hs2 h2 => ?_
      have hm1 : .localityField key (appendEscapedString [] hint ++ field) ∉ s1.store := by
        rw [hs1]
        exact fun hmem => hm (AList.mem_erase.mp hmem).2
      rw [if_neg hm1, show size - 1 + 1 = size by omega] at h2
      have hidx2 : .localityIndex key field ∈ s2.store := by
        rw [hs2, hs1]
        exact (AList.mem_insert _).mpr (.inr (AList.mem_erase.mpr ⟨nofun, hidx⟩))
      rw [does_bind]
      refine h2.writeIndex fun s3 h3 => ?_
      rw [if_pos hidx2, Int.add_zero] at h3
      rw [does_pure, if_neg nofun, Int.add_zero]
      exact h3
    · rename_i hp
      have hidx : .localityIndex key field ∉ s.store := AList.lookup_eq_none.mp hp
      rw [does_bind]
      refine h.writeField fun s1 hs1 h1 => ?_
      rw [if_neg hm] at h1
      have hidx1 : .localityIndex key field ∉ s1.store := by
        rw [hs1]
        intro hmem
        rcases (AList.mem_insert _).mp hmem with he | hmem
        · cases he
        · exact hidx hmem
      rw [does_bind]
      refine h1.writeIndex fun s2 h2 => ?_
      rw [if_neg hidx1] at h2
      rw [does_pure, if_pos rfl]
      exact h2

theorem does_lhset (hi : Inv (n + 3) s) (key field hint value : Bytes) :
    Does (lhset key field hint value) s fun _ s' => Inv n s' := by
  unfold lhset
  refine does_withOperation hi nofun (fun op ho _ => ?_) (hi.mono (by omega))
  have hl := Localizing.start hi ho
  have hb := hl.size_bounds
  rw [does_bind]
  refine (does_lhsetInternal (n := n + 1) hl).mono fun created s' h' => ?_
  have hb' := h'.size_bounds
  rw [does_bind]
  refine (h'.finalize ?_).mono fun _ s'' h => h
  exact sum64_of_fits (by omega) (by omega)

theorem does_lhmsetLoop {s : StagingArea} {size : Int} {args : List Bytes}
    (h : Localizing key desc op (n + args.length) size size s) :
    Does (lhmsetLoop op args) s fun created s' =>
      Localizing key desc op n (size + created) (size + created) s' := by
  induction args using lhmsetLoop.induct generalizing s size with
  | case1 field hint value rest ih =>
    unfold lhmsetLoop
    rw [does_bind]
    have h1 : Localizing key desc op (n + rest.length + 2) size size s := h.mono (by simp only [List.length_cons]; omega)
    refine (does_lhsetInternal h1).mono fun created s' h' => ?_
    rw [does_bind]
    refine (ih h').mono fun more s'' h'' => ?_
    rw [does_pure, show size + (more + if created then 1 else 0) =
      size + (if created then 1 else 0) + more by omega]
    exact h''
  | case2 args hne =>
    unfold lhmsetLoop
    split
    · exact (hne _ _ _ _ rfl).elim
    · rw [does_pure, Int.add_zero]
      exact h.mono (by omega)

theorem does_lhmset {args : List Bytes} (hi : Inv (n + args.length + 1) s) (key : Bytes) :
    Does (lhmset key args) s fun _ s' => Inv n s' := by
  unfold lhmset
  split
  · exact ⟨by decide, by decide⟩
  refine does_withOperation hi nofun (fun op ho _ => ?_) (hi.mono (by omega))
  have hl := Localizing.start hi ho
  have hb := hl.size_bounds
  rw [does_bind]
  refine (does_lhmsetLoop (n := n + 1) (hl.mono (by omega))).mono fun created s' h' => ?_
  have hb' := h'.size_bounds
  rw [does_bind]
  refine (h'.finalize ?_).mono fun _ s'' h => h
  exact sum64_of_fits (by omega) (by omega)

theorem Localizing.getAndDeleteIndex (h : Localizing key desc op n fields indices s) {field : Bytes}
    {post : Option Bytes → StagingArea → Prop}
    (hsome : ∀ hint s', Localizing key desc op n fields (indices - 1) s' → post (some hint) s')
    (hnone : post none s) : Does (op.getAndDeleteLocalityIndex field) s post := by
  unfold WriteOperation.getAndDeleteLocalityIndex
  rw [WriteOperation.assertLocality_valid h.opened.valid h.opened.keyType_eq, pure_bind, does_bind,
    h.opened.redisKey_eq]
  refine does_localityIndexKey ?_
  rw [does_bind, does_get]
  rcases hl : s.store.lookup (.localityIndex key field) with _ | hint
  · rw [hl]
    exact hnone
  · have hm : .localityIndex key field ∈ s.store := AList.lookup_isSome.mp (by rw [hl]; rfl)
    rw [hl]
    exact hsome hint _ ⟨h.opened, h.busy.delIn rfl rfl, h.localities.erase_index hm⟩

theorem does_lhdelLoop (names : List Bytes) {s : StagingArea} {size : Int}
    (h : Localizing key desc op n size size s) :
    Does (lhdelLoop op names) s fun removed s' =>
      Localizing key desc op n (size - removed) (size - removed) s' := by
  induction names generalizing s size with
  | nil =>
    show Localizing key desc op n (size - 0) (size - 0) s
    rw [Int.sub_zero]
    exact h
  | cons field rest ih =>
    unfold lhdelLoop
    rw [does_bind]
    refine h.getAndDeleteIndex (fun hint s1 h1 => ?_) ?_
    · dsimp only
      rw [does_bind]
      refine h1.deleteField (fun s2 _ h2 => ?_) (does_bind.mpr (does_assertThat nofun))
      rw [does_bind]
      refine does_assertThat fun _ => ?_
      rw [does_bind]
      refine (ih h2).mono fun removed s3 h3 => ?_
      rw [does_pure, Option.isSome_some, if_pos rfl,
        show size - (removed + 1) = size - 1 - removed by omega]
      exact h3
    · dsimp only
      rw [does_bind]
      refine (ih h).mono fun removed s1 h1 => ?_
      rw [does_pure, Option.isSome_none, if_neg nofun, Int.add_zero]
      exact h1

theorem does_lhdel (hi : Inv (n + 1) s) (key : Bytes) (names : List Bytes) :
    Does (lhdel key names) s fun _ s' => Inv n s' := by
  unfold lhdel
  refine does_withOperation hi nofun (fun op ho _ => ?_) (hi.mono (by omega))
  have hl := Localizing.start hi ho
  have hb := hl.size_bounds
  rw [does_bind]
  refine (does_lhdelLoop names hl).mono fun removed s' h' => ?_
  have hb' := h'.size_bounds
  rw [does_bind]
  refine (h'.finalize ?_).mono fun _ s'' h => h
  exact sum64_of_fits (by omega) (by omega)

theorem does_assertKeyType (hk : KeyOk s.store key) {type : KeyType}
    {post : Bool → StagingArea → Prop} (h : ∀ b, post b s) : Does (assertKeyType key type) s post := by
  unfold assertKeyType
  rw [does_bind]
  exact does_getKeyDescriptor hk (fun _ => h _) fun _ _ _ _ _ => h _

theorem does_lhlocdel (hi : Inv (n + 1) s) (key field hint : Bytes) :
    Does (lhlocdel key field hint) s fun _ s' => Inv n s' := by
  unfold lhlocdel
  rw [does_bind]
  refine does_assertKeyType (hi.ok key) fun b => ?_
  split
  · exact hi.mono (by omega)
  rw [does_bind]
  refine does_localityFieldKey ?_
  rw [does_bind, does_keyExists]
  split
  · rw [does_bind]
    refine (does_lhdel hi key [field]).mono fun r s' h => ?_
    rw [does_bind]
    exact does_assertThat fun _ => h
  · exact hi.mono (by omega)

theorem does_hget (hk : KeyOk s.store key) {field : Bytes}
    {post : Status × Bytes → StagingArea → Prop} (h : ∀ r, post r s) :
    Does (hget key field) s post := by
  unfold hget
  rw [does_bind]
  refine does_assertKeyType hk fun b => ?_
  split
  · exact h _
  rw [does_bind, does_get]
  split
  · exact h _
  · exact h _

/-- Where the index leads to. -/
theorem does_readIndexed {field correctHint : Bytes}
    {post : Status × Bytes → StagingArea → Prop} (h : ∀ r, post r s) :
    Does (do
      match ← StagingArea.get (← throwing (localityFieldKey key correctHint field)) with
      | some value => return (Status.OK, value)
      | none => throw (Fault.thrown "NotFound: ")) s post := by
  rw [does_bind]
  refine does_localityFieldKey ?_
  rw [does_bind, does_get]
  split
  · exact h _
  · exact ⟨by decide, by decide⟩

theorem does_lhget (hk : KeyOk s.store key) {field hint : Bytes}
    {post : Status × Bytes → StagingArea → Prop} (h : ∀ r, post r s) :
    Does (lhget key field hint) s post := by
  unfold lhget
  rw [does_bind]
  refine does_assertKeyType hk fun b => ?_
  split
  · exact h _
  dsimp only
  split
  · rw [pure_bind]
    dsimp only
    rw [does_bind]
    refine does_localityIndexKey ?_
    rw [does_bind, does_get]
    split
    · exact h _
    · split
      · rw [does_bind]
        exact does_assertThat fun _ => does_readIndexed h
      · exact does_readIndexed h
  · rw [does_bind]
    refine does_localityFieldKey ?_
    rw [does_bind, does_get]
    split
    · exact h _
    rw [does_bind]
    refine does_localityIndexKey ?_
    rw [does_bind, does_get]
    split
    · exact h _
    · split
      · rw [does_bind]
        exact does_assertThat fun _ => does_readIndexed h
      · exact does_readIndexed h

/-! ## Leases -/

theorem does_cacheRemove {deadline : UInt64} {post : Unit → StagingArea → Prop}
    (h : ∀ s', s'.store = s.store → post () s') : Does (cacheRemove deadline key) s post := by
  unfold cacheRemove
  rw [does_bind, does_state]
  split
  · exact h _ rfl
  · exact ⟨by decide, by decide⟩

theorem does_cacheInsert {deadline : UInt64} {post : Unit → StagingArea → Prop}
    (h : ∀ s', s'.store = s.store → post () s') : Does (cacheInsert deadline key) s post := by
  unfold cacheInsert
  rw [does_bind, does_state, does_bind]
  exact does_assertThat fun _ => h _ rfl

theorem Busy.congr {s' : StagingArea} (h : Busy key desc n s) (hs : s'.store = s.store) :
    Busy key desc n s' :=
  ⟨by rw [hs]; exact h.others, by rw [hs]; exact h.descriptor, by rw [hs]; exact h.room⟩

theorem Data.lease {store : Store} {d : KeyDescriptor} (h : Data store key d)
    (ht : d.keyType = .kLease) : Holds store (.lease key) d.sz ∧
      ∀ deadline, .expirationEvent deadline key ∈ store ↔ d.sz ≠ 0 ∧ deadline = d.endIndex := by
  have hs := h.sized
  unfold Sized at hs
  rwa [ht] at hs

/-- Without its value and its event nothing is left of a lease. -/
theorem Data.erase_lease {store : Store} {d : KeyDescriptor} (h : Data store key d)
    (ht : d.keyType = .kLease) :
    Data ((store.erase (.expirationEvent d.endIndex key)).erase (.lease key)) key
      { d with sz := 0 } := by
  refine ⟨(h.only.erase _).erase _, ?_⟩
  unfold Sized
  rw [ht]
  refine ⟨?_, fun deadline => ?_⟩
  · unfold Holds
    rw [AList.lookup_erase]
  · rw [AList.mem_erase, AList.mem_erase, (h.lease ht).2]
    constructor
    · rintro ⟨-, hne, -, rfl⟩
      exact absurd rfl hne
    · rintro ⟨h0, -⟩
      exact absurd rfl h0

theorem does_leaseRelease (hi : Inv n s) (key : Bytes) :
    Does (leaseRelease key) s fun st s' =>
      Inv n s' ∧ (st.ok = true → s'.store.lookup (.descriptor key) = none) := by
  unfold leaseRelease
  refine does_withOperation hi nofun (fun op ho hd => ?_) ⟨hi, nofun⟩
  have ht : op.keyinfo.keyType ≠ .kVersionedHash := by
    rw [ho.keyType_eq]
    nofun
  split
  · rename_i hne
    have hnone : s.store.lookup (.descriptor key) = none := by
      rw [ho.exists_eq] at hne
      simpa using hne
    rw [does_bind]
    refine (does_finalize_zero ho.redisKey_eq ho.valid (hi.busy key) ?_ ht).mono
      fun _ s' h => ⟨h.1, fun _ => h.2⟩
    exact hd.congr_descriptor rfl (ho.fresh hnone).1 fun _ => ⟨rfl, rfl⟩
  · dsimp only
    rw [does_bind]
    refine does_mustExist fun _ => ?_
    rw [does_bind]
    refine does_cacheRemove fun s1 hs1 => ?_
    rw [does_bind, does_del, does_bind]
    refine does_mustExist fun _ => ?_
    rw [does_bind, does_del, does_bind]
    have hb := (((hi.busy key).congr hs1).delIn
      (k := .expirationEvent op.keyinfo.endIndex key) rfl rfl).delIn (k := .lease key) rfl rfl
    refine (does_finalize_zero ho.redisKey_eq ho.valid hb ?_ ht).mono
      fun _ s' h => ⟨h.1, fun _ => h.2⟩
    show Data ((s1.store.erase _).erase _) key _
    rw [hs1]
    exact hd.erase_lease ho.keyType_eq

theorem does_getClock {post : UInt64 → StagingArea → Prop} (h : ∀ clock, post clock s) :
    Does getClock s post := by
  unfold getClock
  rw [does_bind, does_get]
  split
  · exact ⟨by decide, by decide⟩
  · split
    · exact ⟨by decide, by decide⟩
    · exact h _

theorem does_releaseExpired (fuel : Nat) {s : StagingArea} (hi : Inv n s) (newValue : UInt64) :
    Does (releaseExpired fuel newValue) s fun _ s' => Inv n s' := by
  induction fuel generalizing s with
  | zero => exact hi
  | succ fuel ih =>
    unfold releaseExpired
    rw [does_bind, does_state]
    split
    · exact hi
    · split
      · rw [does_bind]
        refine (does_leaseRelease hi _).mono fun st s' hi' => ?_
        rw [does_bind]
        exact does_assertThat fun _ => ih hi'.1
      · exact hi

theorem Inv.putIn (h : Inv (n + 1) s) {k : StoreKey} (ho : k.owner = none) (value : Bytes) :
    Inv n (s.putIn k value) := by
  refine ⟨fun key => KeyOk.insert value (by rw [ho]; nofun) (h.ok key), ?_⟩
  have h1 := h.room
  have h2 := length_insert_le s.store k value
  show (s.store.insert k value).keys.length + n < 2 ^ 63
  omega

theorem does_maybeAdvanceClock (hi : Inv (n + 1) s) (clockUpdate : UInt64) :
    Does (maybeAdvanceClock clockUpdate) s fun _ s' => Inv n s' := by
  unfold maybeAdvanceClock
  rw [does_bind]
  refine does_getClock fun currentClock => ?_
  split
  · unfold advanceClock
    rw [does_bind, does_bind]
    refine does_getClock fun prevValue => ?_
    split
    · exact ⟨by decide, by decide⟩
    · rw [does_bind, does_state, does_bind]
      refine (does_releaseExpired _ hi _).mono fun _ s' hi' => ?_
      rw [does_put]
      exact hi'.putIn rfl _
  · exact hi.mono (by omega)

theorem does_lease_release (hi : Inv (n + 1) s) (key : Bytes) (clockUpdate : UInt64) :
    Does (lease_release key clockUpdate) s fun _ s' => Inv n s' := by
  unfold lease_release
  split
  · rw [does_bind]
    refine (does_maybeAdvanceClock hi _).mono fun _ s' hi' => ?_
    exact (does_leaseRelease hi' key).mono fun _ s'' h => h.1
  · exact (does_leaseRelease (hi.mono (by omega)) key).mono fun _ s' h => h.1

theorem does_lease_get (hi : Inv (n + 1) s) (key : Bytes) (clockUpdate : UInt64) :
    Does (lease_get key clockUpdate) s fun _ s' => Inv n s' := by
  unfold lease_get
  rw [does_bind]
  refine (does_maybeAdvanceClock hi _).mono fun _ s' hi' => ?_
  rw [does_bind]
  refine does_getKeyDescriptor (hi'.ok key) (fun _ => hi') fun bytes d _ _ data => ?_
  rw [data.not_empty, if_neg nofun]
  split
  · exact hi'
  · rw [does_bind, does_get]
    split
    · exact ⟨by decide, by decide⟩
    · exact hi'

/-- A lease has its value, and one event: the deadline that its descriptor names. -/
theorem Data.insert_lease {store : Store} {d : KeyDescriptor} (ho : Only store key .kLease)
    (ht : d.keyType = .kLease) (he : ∀ deadline, .expirationEvent deadline key ∉ store)
    {value : Bytes} (hv : value ≠ []) :
    Data ((store.insert (.expirationEvent d.endIndex key) (ascii "1")).insert (.lease key) value) key
      { d with sz := value.length } := by
  refine ⟨?_, ?_⟩
  · rw [ht]
    refine Only.insert (Only.insert ho _ rfl ?_) _ rfl ?_
    all_goals
      intro _ _ he
      cases he
  · unfold Sized
    rw [ht]
    refine ⟨?_, fun deadline => ?_⟩
    · unfold Holds
      rw [AList.lookup_insert]
      exact ⟨hv, rfl⟩
    · rw [AList.mem_insert, AList.mem_insert]
      have hlen : (value.length : Int) ≠ 0 := by
        have := List.length_pos_iff.mpr hv
        omega
      constructor
      · rintro (h | h | h)
        · cases h
        · exact ⟨hlen, (StoreKey.expirationEvent.inj h).1⟩
        · exact absurd h (he deadline)
      · rintro ⟨-, rfl⟩
        exact .inr (.inl rfl)

/-- The lease is written: its event, its value, and its descriptor. -/
theorem does_grantLease {α : Type} (ho : Opened key .kLease desc op) (hb : Busy key desc (n + 3) s)
    (honly : Only s.store key .kLease) (he : ∀ deadline, .expirationEvent deadline key ∉ s.store)
    {value : Bytes} (hv : value ≠ []) (hlen : value.length < 2 ^ 63) {start deadline : UInt64}
    {reply : α} :
    Does (do
      cacheInsert deadline key
      put (.expirationEvent deadline key) (ascii "1")
      let operation : WriteOperation :=
        { op with keyinfo := { op.keyinfo with startIndex := start, endIndex := deadline } }
      operation.write value
      operation.finalize value.length true
      return reply) s fun _ s' => Inv n s' := by
  rw [does_bind]
  refine does_cacheInsert fun s1 hs1 => ?_
  rw [does_bind, does_put]
  have hk : WriteOperation.valueKey
      { op with keyinfo := { op.keyinfo with startIndex := start, endIndex := deadline } } =
      .ok (.lease key) := by
    unfold WriteOperation.valueKey
    dsimp only
    rw [ho.keyType_eq, ho.redisKey_eq]
    rfl
  dsimp only
  unfold WriteOperation.write
  rw [WriteOperation.assertWritable_valid (by exact ho.valid), hk, pure_bind, throwing_ok, pure_bind,
    does_bind, does_put, does_bind]
  have hb' := ((hb.congr hs1).putIn (k := .expirationEvent deadline key) rfl rfl (ascii "1")).putIn
    (k := .lease key) rfl rfl value
  refine (does_finalize (by exact ho.redisKey_eq) (by exact ho.valid) hb' ?_ (by omega) ?_ ?_).mono
    fun _ s' h => h.1
  · show Data ((s1.store.insert _ _).insert _ _) key _
    rw [hs1]
    exact Data.insert_lease (d := { op.keyinfo with startIndex := start, endIndex := deadline }) honly
      ho.keyType_eq he hv
  · nofun
  · nofun

theorem does_lease_acquire (hi : Inv (n + 4) s) {value : Bytes} (hlen : value.length < 2 ^ 63)
    (key : Bytes) (clockUpdate duration : UInt64) :
    Does (lease_acquire key value clockUpdate duration) s fun _ s' => Inv n s' := by
  unfold lease_acquire
  rw [does_bind]
  refine does_assertThat fun hne => ?_
  have hv : value ≠ [] := by simpa using hne
  rw [does_bind]
  refine (does_maybeAdvanceClock hi _).mono fun clock s1 hi1 => ?_
  refine does_withOperation hi1 nofun (fun op ho hd => ?_) (hi1.mono (by omega))
  have honly : Only s1.store key .kLease := ho.keyType_eq ▸ hd.only
  have hev := (hd.lease ho.keyType_eq).2
  rw [does_bind, does_get]
  split
  · exact hi1.mono (by omega)
  dsimp only
  split
  · rw [does_bind]
    refine does_cacheRemove fun s2 hs2 => ?_
    rw [does_bind]
    refine does_mustExist fun _ => ?_
    rw [does_bind, does_del]
    have hb := ((hi1.busy key).congr hs2).delIn
      (k := .expirationEvent op.keyinfo.endIndex key) rfl rfl
    refine does_grantLease ho hb ?_ ?_ hv hlen
    · show Only (s2.store.erase _) key _
      rw [hs2]
      exact honly.erase _
    · intro deadline
      show ¬ _ ∈ s2.store.erase _
      rw [hs2, AList.mem_erase, hev]
      rintro ⟨hne, -, rfl⟩
      exact hne rfl
  · rename_i hne
    have hnone : s1.store.lookup (.descriptor key) = none := by
      rw [ho.exists_eq] at hne
      simpa using hne
    refine does_grantLease ho (hi1.busy key) honly ?_ hv hlen
    intro deadline
    rw [hev]
    exact fun h => h.1 (ho.fresh hnone).1

/-! ## Commands on keys of any type -/

theorem yields_delAll (keys : List StoreKey) {s : StagingArea} {fault : Fault → Prop}
    {post : Unit → StagingArea → Prop}
    (h : ∀ s', (∀ k, s'.store.lookup k = if k ∈ keys then none else s.store.lookup k) →
      s'.store.keys.length ≤ s.store.keys.length → post () s') :
    Yields (delAll keys) s post fault := by
  induction keys generalizing s with
  | nil => exact h s (fun k => by simp) (Nat.le_refl _)
  | cons key rest ih =>
    unfold delAll
    rw [yields_bind, yields_del]
    refine ih fun s' hs' hlen => h s' (fun k => ?_) ?_
    · rw [hs' k]
      by_cases hr : k ∈ rest
      · rw [if_pos hr, if_pos (List.mem_cons_of_mem _ hr)]
      · rw [if_neg hr]
        show (s.store.erase key).lookup k = _
        by_cases he : k = key
        · rw [he, AList.lookup_erase, if_pos List.mem_cons_self]
        · rw [AList.lookup_erase_ne he, if_neg (by simp [he, hr])]
    · exact Nat.le_trans hlen (length_erase_le _ _)

/-- All keys that are meant go, and they are as many as were counted. -/
theorem yields_removeAll {under : StoreKey → Bool} {fault : Fault → Prop}
    {post : Int → StagingArea → Prop}
    (h : ∀ s', (∀ k, s'.store.lookup k = if under k = true then none else s.store.lookup k) →
      s'.store.keys.length ≤ s.store.keys.length → post (count s.store under) s') :
    Yields (removeAll under) s post fault := by
  unfold removeAll
  rw [yields_bind, yields_get]
  dsimp only
  rw [yields_bind]
  refine yields_delAll _ fun s' hs' hlen => ?_
  rw [yields_pure]
  have hc : (s.store.keys.filter under).length = count s.store under :=
    List.countP_eq_length_filter.symm
  rw [hc]
  refine h s' (fun k => ?_) hlen
  rw [hs' k]
  by_cases hu : under k = true
  · rw [if_pos hu]
    split
    · rfl
    · rename_i hm
      rw [AList.lookup_eq_none, AList.mem_keys]
      exact fun hk => hm (List.mem_filter.mpr ⟨hk, hu⟩)
  · rw [if_neg hu, if_neg]
    exact fun hm => hu (List.mem_filter.mp hm).2

/-- Some data of a key is gone, and nothing else has changed. -/
theorem Busy.removed {s' : StagingArea} (h : Busy key desc n s) {under : StoreKey → Bool}
    (hu : ∀ k, under k = true → k.owner = some key ∧ k.dataType.isSome = true)
    (hs : ∀ k, s'.store.lookup k = if under k = true then none else s.store.lookup k)
    (hlen : s'.store.keys.length ≤ s.store.keys.length) : Busy key desc n s' := by
  refine ⟨fun key' hne => (h.others key' hne).congr fun k ho => ?_, ?_, ?_⟩
  · rw [hs, if_neg]
    intro hk
    rw [(hu k hk).1] at ho
    exact hne (Option.some.inj ho).symm
  · rw [hs, if_neg]
    · exact h.descriptor
    · exact fun hk => nomatch (hu _ hk).2
  · have := h.room
    omega

theorem mem_of_removed {store store' : Store} {under : StoreKey → Bool}
    (hs : ∀ k, store'.lookup k = if under k = true then none else store.lookup k) {k : StoreKey} :
    k ∈ store' ↔ under k = false ∧ k ∈ store := by
  rw [← AList.lookup_isSome, hs k]
  cases under k with
  | true => simp
  | false => simp [AList.lookup_isSome]

theorem Only.removed {store store' : Store} {type : KeyType} {under : StoreKey → Bool}
    (h : Only store key type)
    (hs : ∀ k, store'.lookup k = if under k = true then none else store.lookup k) :
    Only store' key type :=
  ⟨fun k hk => h.typed k ((mem_of_removed hs).mp hk).2,
    fun t field hk => h.bearing t field ((mem_of_removed hs).mp hk).2⟩

theorem count_removed {store store' : Store} {under : StoreKey → Bool}
    (hs : ∀ k, store'.lookup k = if under k = true then none else store.lookup k) :
    count store' under = 0 := by
  rw [count_eq_zero]
  exact fun k hk => ((mem_of_removed hs).mp hk).1

/-- All fields of a key go, and the descriptor has counted them. -/
theorem does_removeCounted {under : StoreKey → Bool} {size : Int} (hb : Busy key desc n s)
    (hu : ∀ k, under k = true → k.owner = some key ∧ k.dataType.isSome = true)
    (hc : size = count s.store under) {post : Unit → StagingArea → Prop}
    (h : ∀ s', Busy key desc n s' →
      (∀ k, s'.store.lookup k = if under k = true then none else s.store.lookup k) → post () s') :
    Does (removeCounted under size) s post := by
  unfold removeCounted
  rw [does_bind]
  refine yields_removeAll fun s' hs' hlen => ?_
  rw [if_neg (by omega)]
  exact h s' (hb.removed hu hs' hlen) hs'

/-- The contents of a key go, all of them. -/
theorem does_removeContents {d : KeyDescriptor} (hi : Inv n s) (hd : Data s.store key d) :
    Does (removeContents key d) s fun _ s' => (∃ desc, Busy key desc n s') ∧
      ∀ k ∈ s'.store, k.owner = some key → k.dataType = none := by
  have hb := hi.busy key
  have hfield : ∀ type, ∀ k, isField type key k = true →
      k.owner = some key ∧ k.dataType.isSome = true := by
    intro type k hk
    obtain ⟨ho, ht⟩ := owner_of_isField hk
    exact ⟨ho, by rw [ht]; rfl⟩
  -- what is left of a key whose fields are all gone
  have hfields : d.sz = count s.store (isField d.keyType key) →
      (∀ store, count store (isField d.keyType key) = 0 → Sized store key { d with sz := 0 }) →
      Does (removeCounted (isField d.keyType key) d.sz) s
        fun _ s' => (∃ desc, Busy key desc n s') ∧
          ∀ k ∈ s'.store, k.owner = some key → k.dataType = none := by
    intro hc hz
    refine does_removeCounted hb (hfield _) hc fun s' hb' hs' => ?_
    have hd' : Data s'.store key { d with sz := 0 } :=
      ⟨hd.only.removed hs', hz _ (count_removed hs')⟩
    exact ⟨⟨_, hb'⟩, fun k hk ho => hd'.nothing rfl hk ho⟩
  have hplain : Plain d.keyType → Does (removeCounted (isField d.keyType key) d.sz) s
      fun _ s' => (∃ desc, Busy key desc n s') ∧
        ∀ k ∈ s'.store, k.owner = some key → k.dataType = none := by
    intro hp
    refine hfields ((sized_plain hp).mp hd.sized) fun store h0 => ?_
    rw [sized_plain (by exact hp)]
    dsimp only
    rw [h0]
    rfl
  unfold removeContents
  split <;> rename_i ht
  · -- a string
    rw [does_bind]
    refine does_mustExist fun _ => ?_
    rw [does_del]
    have hd' : Data (s.store.erase (.string key)) key { d with sz := 0 } := by
      refine ⟨hd.only.erase _, ?_⟩
      unfold Sized
      rw [ht]
      show Holds _ _ 0
      unfold Holds
      rw [AList.lookup_erase]
    exact ⟨⟨_, hb.delIn rfl rfl⟩, fun k hk ho => hd'.nothing rfl hk ho⟩
  · exact hplain (.inl ht)
  · exact hplain (.inr (.inl ht))
  · -- a deque
    have hs := hd.sized
    unfold Sized at hs
    rw [ht] at hs
    refine hfields (by rw [ht]; exact hs.1) fun store h0 => ?_
    rw [ht] at h0
    unfold Sized
    rw [ht]
    dsimp only
    rw [h0]
    exact ⟨rfl, fun hne => absurd rfl hne⟩
  · exact hplain (.inr (.inr ht))
  · -- a locality hash
    have hl := hd.localities ht
    rw [does_bind]
    refine does_assertThat fun _ => ?_
    rw [does_bind]
    refine does_removeCounted hb (fun k hk => ?_) hl.fields_eq fun s1 hb1 hs1 => ?_
    · obtain ⟨ho, ht⟩ := owner_of_isLocalityField hk
      exact ⟨ho, by rw [ht]; rfl⟩
    have hi1 : d.sz = count s1.store (isLocalityIndex key) := by
      rw [hl.indices_eq]
      congr 1
      apply count_congr
      intro k hk
      rw [mem_of_removed hs1, and_iff_right]
      cases k <;> first | rfl | cases hk
    refine does_removeCounted hb1 (fun k hk => ?_) hi1 fun s2 hb2 hs2 => ?_
    · obtain ⟨ho, ht⟩ := owner_of_isLocalityIndex hk
      exact ⟨ho, by rw [ht]; rfl⟩
    have hl2 : Localities s2.store key 0 0 := by
      refine ⟨(hl.only.removed hs1).removed hs2, ?_, ?_⟩
      · have h0 := count_eq_zero.mp (count_removed hs1)
        have hz : count s2.store (isLocalityField key) = 0 :=
          count_eq_zero.mpr fun k hk => h0 k ((mem_of_removed hs2).mp hk).2
        rw [hz]
        rfl
      · rw [count_removed hs2]
        rfl
    have hd2 := hl2.data ht
    exact ⟨⟨_, hb2⟩, fun k hk ho => hd2.nothing rfl hk ho⟩
  · -- a lease
    rw [does_bind]
    refine (does_leaseRelease hi key).mono fun st s' h => ?_
    split
    · exact ⟨by decide, by decide⟩
    · rename_i hok
      have hnone := h.2 (by simpa using hok)
      refine ⟨⟨_, h.1.busy key⟩, fun k hk ho => ?_⟩
      exact absurd ho ((h.1.ok key).nothing hnone k hk)
  · exact ⟨by decide, by decide⟩

theorem does_delKeys (keys : List Bytes) {s : StagingArea} (hi : Inv n s) :
    Does (delKeys keys) s fun _ s' => Inv n s' := by
  induction keys generalizing s with
  | nil => exact hi
  | cons key rest ih =>
    unfold delKeys
    rw [does_bind]
    refine does_getKeyDescriptor (hi.ok key) (fun _ => ih hi) fun bytes d _ _ data => ?_
    rw [data.not_empty, if_neg nofun, does_bind]
    refine (does_removeContents hi data).mono fun _ s1 h1 => ?_
    obtain ⟨⟨desc, hb⟩, hempty⟩ := h1
    rw [does_bind, does_del, does_bind]
    exact (ih (hb.inv_delIn (KeyOk.erase_descriptor hempty))).mono fun _ s2 h2 => h2

theorem does_flushall (hi : Inv n s) : Does flushall s fun _ s' => Inv n s' := by
  unfold flushall
  rw [does_bind]
  refine yields_removeAll fun s' hs' hlen => ?_
  rw [does_bind, does_modify, does_pure]
  have hn : ∀ (k : StoreKey) (key : Bytes), k.owner = some key → s'.store.lookup k = none := by
    intro k key ho
    rw [hs' k, if_pos]
    cases k <;> first | rfl | cases ho
  refine ⟨fun key => ?_, by have := hi.room; show s'.store.keys.length + n < 2 ^ 63; omega⟩
  unfold KeyOk
  rw [hn (.descriptor key) key rfl]
  intro k hk ho
  exact AList.lookup_eq_none.mp (hn k key ho) hk

theorem does_configSet (hi : Inv (n + 1) s) (key value : Bytes) :
    Does (configSet key value) s fun _ s' => Inv n s' := by
  unfold configSet
  rw [does_bind, does_put]
  exact hi.putIn rfl value

end

end quarkdb
