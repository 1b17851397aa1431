-- What the steps of a command do to the contents of a key: a rule for each of them.
import QuarkDB.Contents

namespace quarkdb

open Endian StateMachine StagingArea Tally Outcome

/-! ## Descriptors read back -/

theorem parseKeyType_of_layout {type : KeyType} (h : KeyDescriptor.layout type ≠ .none) :
    parseKeyType type.toChar = type := by
  cases type <;> first | rfl | exact absurd rfl h

/-- A descriptor reads back with its type, as much of its size as fits, and the indices
that matter. -/
theorem ofBytes_serialize_wrapped {d : KeyDescriptor} {bytes : Bytes}
    (h : d.serialize = .ok bytes) :
    ∃ d', KeyDescriptor.ofBytes bytes = .ok d' ∧ d'.keyType = d.keyType ∧
      d'.sz = ofBigInt (bigInt d.sz) ∧
      (KeyDescriptor.layout d.keyType = .indices →
        d'.startIndex = d.startIndex ∧ d'.endIndex = d.endIndex) ∧
      (KeyDescriptor.layout d.keyType = .version → d'.startIndex = d.startIndex) := by
  generalize hz : ofBigInt (bigInt d.sz) = z
  have hu : ∀ n : UInt64, (unsignedIntToBinaryString n).length = 8 := by
    intro n
    unfold unsignedIntToBinaryString
    rw [List.length_reverse, length_toLittle]
  have ht : KeyDescriptor.layout d.keyType ≠ .none → parseKeyType d.keyType.toChar = d.keyType :=
    parseKeyType_of_layout
  have hb : ∀ rest, ofBigInt ((bigInt d.sz ++ rest).take 8) = z := by
    intro rest
    rw [List.take_append_of_le_length (by simp), List.take_of_length_le (by simp), hz]
  have hr : ∀ rest, (bigInt d.sz ++ rest).drop 8 = rest := by
    intro rest
    rw [List.drop_append_of_le_length (by simp), List.drop_of_length_le (by simp)]
    rfl
  unfold KeyDescriptor.serialize at h
  split at h <;> rename_i hl <;> rw [hl] at ht ⊢
  · cases h
    have hd := hb []
    rw [List.append_nil] at hd
    refine ⟨{ keyType := d.keyType, sz := z }, ?_, rfl, rfl, nofun, nofun⟩
    unfold KeyDescriptor.ofBytes
    dsimp only
    rw [ht nofun, hl, hd, length_bigInt]
    rfl
  · obtain ⟨u, ha, h⟩ := ok_of_bind h
    cases h
    refine ⟨{ keyType := d.keyType, sz := z, startIndex := d.startIndex, endIndex := d.endIndex },
      ?_, rfl, rfl, fun _ => ⟨rfl, rfl⟩, nofun⟩
    have h2 : (bigInt d.sz ++ (unsignedIntToBinaryString d.startIndex ++
        unsignedIntToBinaryString d.endIndex)).length = 24 := by
      simp only [List.length_append, length_bigInt, hu]
    have h3 : (unsignedIntToBinaryString d.startIndex ++
        unsignedIntToBinaryString d.endIndex).take 8 = unsignedIntToBinaryString d.startIndex := by
      rw [List.take_append_of_le_length (by simp [hu]), List.take_of_length_le (by simp [hu])]
    have h4 : (bigInt d.sz ++ (unsignedIntToBinaryString d.startIndex ++
        unsignedIntToBinaryString d.endIndex)).drop 16 = unsignedIntToBinaryString d.endIndex := by
      rw [show 16 = 8 + 8 from rfl, ← List.drop_drop, hr,
        List.drop_append_of_le_length (by simp [hu]), List.drop_of_length_le (by simp [hu])]
      rfl
    unfold KeyDescriptor.ofBytes
    dsimp only
    rw [ht nofun, hl, hb, hr, h2, h3, h4, List.take_of_length_le (by simp [hu]),
      binaryStringToUnsignedInt_unsignedIntToBinaryString,
      binaryStringToUnsignedInt_unsignedIntToBinaryString]
    dsimp only
    rw [ha]
    rfl
  · cases h
    refine ⟨{ keyType := d.keyType, sz := z, startIndex := d.startIndex }, ?_, rfl, rfl, nofun,
      fun _ => rfl⟩
    have h2 : (bigInt d.sz ++ unsignedIntToBinaryString d.startIndex).length = 16 := by
      simp only [List.length_append, length_bigInt, hu]
    unfold KeyDescriptor.ofBytes
    dsimp only
    rw [ht nofun, hl, hb, hr, h2, List.take_of_length_le (by simp [hu]),
      binaryStringToUnsignedInt_unsignedIntToBinaryString]
    rfl
  · cases h

/-- A size that is read is one of 64 bits. -/
theorem ofBytes_sz_lt {bytes : Bytes} {d : KeyDescriptor}
    (h : KeyDescriptor.ofBytes bytes = .ok d) : d.sz < 2 ^ 63 := by
  have hlt : ∀ bytes, ofBigInt bytes < 2 ^ 63 := by
    intro bytes
    have := @Int.bmod_lt (ofLittle bytes.reverse) (2 ^ 64) (by decide)
    unfold ofBigInt signed
    omega
  unfold KeyDescriptor.ofBytes at h
  split at h
  · cases h
  · rename_i rest
    dsimp only at h
    have hread := hlt (rest.take 8)
    generalize ofBigInt (rest.take 8) = sz at h hread
    split at h
    · obtain ⟨_, -, h⟩ := ok_of_bind h
      cases h
      exact hread
    · obtain ⟨_, -, h⟩ := ok_of_bind h
      obtain ⟨_, -, h⟩ := ok_of_bind h
      cases h
      exact hread
    · obtain ⟨_, -, h⟩ := ok_of_bind h
      cases h
      exact hread
    · cases h

/-- A size that fits reads back as it is. -/
theorem ofBytes_serialize {d : KeyDescriptor} {bytes : Bytes} (h : d.serialize = .ok bytes)
    (h0 : 0 ≤ d.sz) (h1 : d.sz < 2 ^ 63) :
    ∃ d', KeyDescriptor.ofBytes bytes = .ok d' ∧ d'.keyType = d.keyType ∧ d'.sz = d.sz ∧
      (KeyDescriptor.layout d.keyType = .indices →
        d'.startIndex = d.startIndex ∧ d'.endIndex = d.endIndex) := by
  obtain ⟨d', hd, ht, hz, hi, -⟩ := ofBytes_serialize_wrapped h
  have hfit : ofBigInt (bigInt d.sz) = d.sz := ofBigInt_bigInt (by omega) h1
  exact ⟨d', hd, ht, hz.trans hfit, hi⟩

/-- A descriptor with two indices reads back as it is. -/
theorem ofBytes_of_indices {d : KeyDescriptor} (hl : KeyDescriptor.layout d.keyType = .indices)
    (ho : d.startIndex ≤ d.endIndex) (h0 : 0 ≤ d.sz) (h1 : d.sz < 2 ^ 63) :
    ∃ bytes, d.serialize = .ok bytes ∧ KeyDescriptor.ofBytes bytes = .ok d := by
  have hs : ∃ bytes, d.serialize = .ok bytes := by
    unfold KeyDescriptor.serialize
    rw [hl]
    dsimp only
    rw [decide_eq_true ho]
    exact ⟨_, rfl⟩
  obtain ⟨bytes, hb⟩ := hs
  obtain ⟨d', hd, ht, hz, hi⟩ := ofBytes_serialize hb h0 h1
  obtain ⟨h2, h3⟩ := hi hl
  have he : d' = d := by
    cases d
    cases d'
    subst ht hz h2 h3
    rfl
  exact ⟨bytes, hb, he ▸ hd⟩

/-! ## Rules for staging areas -/

/-- No counter is found to be wrong. -/
def NoMiscount (fault : Fault) : Prop :=
  fault ≠ .thrown "invalid newsize: " ∧
  fault ≠ .thrown "mismatch between keyInfo counter and number of elements deleted by remove_all_with_prefix: "

/-- What a command does, with no counter found wrong on the way. -/
abbrev Does {α : Type} (c : StagingM α) (s : StagingArea) (post : α → StagingArea → Prop) : Prop :=
  Yields c s post NoMiscount

def StagingArea.putIn (s : StagingArea) (k : StoreKey) (value : Bytes) : StagingArea :=
  { s with store := s.store.insert k value, batch := s.batch.insert k value }

def StagingArea.delIn (s : StagingArea) (k : StoreKey) : StagingArea :=
  { s with store := s.store.erase k, batch := s.batch.erase k }

section

variable {s : StagingArea} {α β : Type}

@[simp]
theorem does_pure (a : α) {post : α → StagingArea → Prop} : Does (pure a) s post ↔ post a s :=
  Iff.rfl

@[simp]
theorem does_bind {c : StagingM α} {f : α → StagingM β} {post : β → StagingArea → Prop} :
    Does (c >>= f) s post ↔ Does c s fun a s' => Does (f a) s' post := yields_bind

@[simp]
theorem does_state {post : StagingArea → StagingArea → Prop} :
    Does MonadState.get s post ↔ post s s := Iff.rfl

@[simp]
theorem does_throw (fault : Fault) {post : α → StagingArea → Prop} :
    Does (throw fault) s post ↔ NoMiscount fault := Iff.rfl

@[simp]
theorem does_modify (f : StagingArea → StagingArea) {post : Unit → StagingArea → Prop} :
    Does (modify f) s post ↔ post () (f s) := Iff.rfl

@[simp]
theorem does_put (k : StoreKey) (value : Bytes) {post : Unit → StagingArea → Prop} :
    Does (put k value) s post ↔ post () (s.putIn k value) := Iff.rfl

@[simp]
theorem does_del (k : StoreKey) {post : Unit → StagingArea → Prop} :
    Does (del k) s post ↔ post () (s.delIn k) := Iff.rfl

@[simp]
theorem does_get (k : StoreKey) {post : Option Bytes → StagingArea → Prop} :
    Does (get k) s post ↔ post (s.store.lookup k) s := Iff.rfl

@[simp]
theorem does_keyExists (k : StoreKey) {post : Bool → StagingArea → Prop} :
    Does (keyExists k) s post ↔ post (s.store.lookup k).isSome s := Iff.rfl

/-- An assertion that fails finds no counter wrong. -/
theorem does_assertThat {holds : Bool} {condition : String} {post : Unit → StagingArea → Prop}
    (h : holds = true → post () s) : Does (assertThat holds condition) s post := by
  cases holds with
  | true => exact h rfl
  | false => exact ⟨nofun, nofun⟩

theorem does_throwing {call : Except Fault α} {post : α → StagingArea → Prop}
    (h : ∀ a, call = .ok a → post a s) (he : ∀ e, call = .error e → NoMiscount e) :
    Does (throwing call) s post :=
  yields_lift.mpr ⟨h, he⟩

theorem noMiscount_assertion (condition : String) : NoMiscount (.assertion condition) :=
  ⟨nofun, nofun⟩

theorem does_mustExist {k : StoreKey} {post : Unit → StagingArea → Prop}
    (h : k ∈ s.store → post () s) : Does (mustExist k) s post := by
  unfold mustExist
  rw [does_bind, does_keyExists]
  rcases hk : s.store.lookup k with _ | value
  · exact ⟨by decide, by decide⟩
  · exact h (AList.lookup_isSome.mp (by rw [hk]; rfl))

end

/-! ### The equations of a valid operation -/

namespace WriteOperation

variable {op : WriteOperation}

theorem assertWritable_valid (hv : op.isValid = true) : op.assertWritable = pure () := by
  unfold assertWritable
  rw [hv]
  rfl

theorem fieldKey_eq (hb : op.keyinfo.keyType.bearsFields = true) (field : Bytes) :
    op.fieldKey field = .ok (.field op.keyinfo.keyType op.redisKey field) := by
  unfold fieldKey
  rw [hb]
  rfl

theorem getField_eq (hv : op.isValid = true) (hb : op.keyinfo.keyType.bearsFields = true)
    (field : Bytes) :
    op.getField field = get (.field op.keyinfo.keyType op.redisKey field) := by
  unfold getField
  rw [assertWritable_valid hv, fieldKey_eq hb]
  rfl

theorem fieldExists_eq (hv : op.isValid = true) (hb : op.keyinfo.keyType.bearsFields = true)
    (field : Bytes) :
    op.fieldExists field = keyExists (.field op.keyinfo.keyType op.redisKey field) := by
  unfold fieldExists
  rw [assertWritable_valid hv, fieldKey_eq hb]
  rfl

theorem writeField_eq (hv : op.isValid = true) (hb : op.keyinfo.keyType.bearsFields = true)
    (field value : Bytes) :
    op.writeField field value = put (.field op.keyinfo.keyType op.redisKey field) value := by
  unfold writeField
  rw [assertWritable_valid hv, fieldKey_eq hb]
  rfl

theorem deleteField_eq (hv : op.isValid = true) (hb : op.keyinfo.keyType.bearsFields = true)
    (field : Bytes) :
    op.deleteField field = deleteKey (.field op.keyinfo.keyType op.redisKey field) := by
  unfold deleteField
  rw [assertWritable_valid hv, fieldKey_eq hb]
  rfl

theorem assertLocality_valid (hv : op.isValid = true)
    (ht : op.keyinfo.keyType = .kLocalityHash) : op.assertLocality = pure () := by
  unfold assertLocality
  rw [assertWritable_valid hv, ht]
  rfl

end WriteOperation

theorem does_deleteKey {s : StagingArea} {k : StoreKey} {post : Bool → StagingArea → Prop}
    (h : k ∈ s.store → post true (s.delIn k)) (hn : k ∉ s.store → post false s) :
    Does (WriteOperation.deleteKey k) s post := by
  unfold WriteOperation.deleteKey
  rw [does_bind, does_keyExists]
  rcases hk : s.store.lookup k with _ | value
  · exact hn (AList.lookup_eq_none.mp hk)
  · exact h (AList.lookup_isSome.mp (by rw [hk]; rfl))

/-! ### Rules for any fault -/

section

variable {s : StagingArea} {α : Type} {fault : Fault → Prop}

@[simp]
theorem yields_put (k : StoreKey) (value : Bytes) {post : Unit → StagingArea → Prop} :
    Yields (put k value) s post fault ↔ post () (s.putIn k value) := Iff.rfl

@[simp]
theorem yields_del (k : StoreKey) {post : Unit → StagingArea → Prop} :
    Yields (del k) s post fault ↔ post () (s.delIn k) := Iff.rfl

@[simp]
theorem yields_lookup (k : StoreKey) {post : Option Bytes → StagingArea → Prop} :
    Yields (get k) s post fault ↔ post (s.store.lookup k) s := Iff.rfl

@[simp]
theorem yields_keyExists (k : StoreKey) {post : Bool → StagingArea → Prop} :
    Yields (keyExists k) s post fault ↔ post (s.store.lookup k).isSome s := Iff.rfl

theorem assertThat_true (condition : String) : assertThat true condition = pure () := rfl

/-- What is there is deleted. -/
theorem yields_deleteKey {k : StoreKey} (hk : k ∈ s.store) {post : Bool → StagingArea → Prop} :
    Yields (WriteOperation.deleteKey k) s post fault ↔ post true (s.delIn k) := by
  unfold WriteOperation.deleteKey
  rw [yields_bind, yields_keyExists, AList.lookup_isSome.mpr hk]
  exact Iff.rfl

theorem yields_deleteKey_missing {k : StoreKey} (hk : k ∉ s.store)
    {post : Bool → StagingArea → Prop} :
    Yields (WriteOperation.deleteKey k) s post fault ↔ post false s := by
  unfold WriteOperation.deleteKey
  rw [yields_bind, yields_keyExists, AList.lookup_eq_none.mpr hk]
  exact Iff.rfl

variable {key : Bytes} {type : KeyType}

/-- The operation that is started on a key without a descriptor. -/
def WriteOperation.fresh (key : Bytes) (type : KeyType) : WriteOperation where
  redisKey := key
  keyinfo :=
    if type = .kVersionedHash then { keyType := type, startIndex := 0 } else { keyType := type }
  redisKeyExists := false
  isValid := true

theorem yields_withOperation_fresh {otherwise : α} {body : WriteOperation → StagingM α}
    {post : α → StagingArea → Prop} (hn : s.store.lookup (.descriptor key) = none) :
    Yields (withOperation key type otherwise body) s post fault ↔
      Yields (body (.fresh key type)) s post fault := by
  unfold withOperation WriteOperation.start getKeyDescriptor
  rw [yields_bind, yields_bind, yields_bind, yields_lookup, hn]
  exact Iff.rfl

theorem yields_withOperation_known {otherwise : α} {body : WriteOperation → StagingM α}
    {post : α → StagingArea → Prop} {bytes : Bytes} {d : KeyDescriptor}
    (hl : s.store.lookup (.descriptor key) = some bytes)
    (hd : KeyDescriptor.ofBytes bytes = .ok d) (ht : d.keyType = type) (hne : type ≠ .kNull) :
    Yields (withOperation key type otherwise body) s post fault ↔
      Yields (body { redisKey := key, keyinfo := d, redisKeyExists := true, isValid := true }) s
        post fault := by
  have he : d.empty = false := by
    unfold KeyDescriptor.empty
    rw [ht]
    exact decide_eq_false hne
  have hv : decide (d.keyType = type) = true := decide_eq_true ht
  unfold withOperation WriteOperation.start getKeyDescriptor
  rw [yields_bind, yields_bind, yields_bind, yields_lookup, hl]
  dsimp only
  rw [hd, throwing_ok, yields_pure, he, if_neg nofun, yields_pure, hv]
  exact Iff.rfl

variable {op : WriteOperation} {post : Unit → StagingArea → Prop}

theorem yields_finalize_gone {force : Bool} (hv : op.isValid = true)
    (ht : op.keyinfo.keyType ≠ .kVersionedHash) :
    Yields (op.finalize 0 force) s post fault ↔ post () (s.delIn (.descriptor op.redisKey)) := by
  unfold WriteOperation.finalize
  rw [WriteOperation.assertWritable_valid hv, pure_bind, if_neg (by omega), if_pos ⟨rfl, ht⟩,
    yields_del]

theorem yields_finalize_written {newsize : Int} {force : Bool} {bytes : Bytes}
    (hv : op.isValid = true) (h0 : 0 ≤ newsize)
    (hz : newsize = 0 → op.keyinfo.keyType = .kVersionedHash)
    (hw : op.keyinfo.sz ≠ newsize ∨ force = true)
    (hs : KeyDescriptor.serialize { op.keyinfo with sz := newsize } = .ok bytes) :
    Yields (op.finalize newsize force) s post fault ↔
      post () (s.putIn (.descriptor op.redisKey) bytes) := by
  unfold WriteOperation.finalize
  rw [WriteOperation.assertWritable_valid hv, pure_bind, if_neg (by omega),
    if_neg (fun h => h.2 (hz h.1)), if_pos hw, hs, throwing_ok, pure_bind, yields_put]

theorem yields_finalize_kept {force : Bool} (hv : op.isValid = true) (h0 : 0 ≤ op.keyinfo.sz)
    (hz : op.keyinfo.sz = 0 → op.keyinfo.keyType = .kVersionedHash) (hf : force = false) :
    Yields (op.finalize op.keyinfo.sz force) s post fault ↔ post () s := by
  unfold WriteOperation.finalize
  rw [WriteOperation.assertWritable_valid hv, pure_bind, if_neg (by omega),
    if_neg (fun h => h.2 (hz h.1)), if_neg (by simp [hf]), yields_pure]

end

/-! ## Operations in progress -/

/-- What a command leaves behind: true descriptors, and room for `n` more keys. -/
structure Inv (n : Nat) (s : StagingArea) : Prop where
  ok : ∀ key, KeyOk s.store key
  room : s.store.keys.length + n < 2 ^ 63

/-- A command is changing the contents of a key, and its descriptor is still what it was;
all other keys are in order. -/
structure Busy (key : Bytes) (desc : Option Bytes) (n : Nat) (s : StagingArea) : Prop where
  others : ∀ key' ≠ key, KeyOk s.store key'
  descriptor : s.store.lookup (.descriptor key) = desc
  room : s.store.keys.length + n < 2 ^ 63

/-- What an operation knows of its key, from the descriptor it read. -/
structure Opened (key : Bytes) (type : KeyType) (desc : Option Bytes) (op : WriteOperation) :
    Prop where
  redisKey_eq : op.redisKey = key
  valid : op.isValid = true
  keyType_eq : op.keyinfo.keyType = type
  exists_eq : op.redisKeyExists = desc.isSome
  known : ∀ bytes, desc = some bytes → KeyDescriptor.ofBytes bytes = .ok op.keyinfo
  fresh : desc = none → op.keyinfo.sz = 0 ∧
    (type ≠ .kVersionedHash → op.keyinfo = { keyType := type })

section

variable {key : Bytes} {type : KeyType} {desc : Option Bytes} {n : Nat} {s : StagingArea}
  {op : WriteOperation}

theorem Inv.busy (h : Inv n s) (key : Bytes) : Busy key (s.store.lookup (.descriptor key)) n s :=
  ⟨fun key' _ => h.ok key', rfl, h.room⟩

theorem Inv.mono {m : Nat} (h : Inv n s) (hm : m ≤ n) : Inv m s :=
  ⟨h.ok, by have := h.room; omega⟩

theorem Busy.mono {m : Nat} (h : Busy key desc n s) (hm : m ≤ n) : Busy key desc m s :=
  ⟨h.others, h.descriptor, by have := h.room; omega⟩

theorem ne_descriptor {k : StoreKey} (hk : k.dataType.isSome = true) :
    .descriptor key ≠ k := by
  rintro rfl
  cases hk

theorem Busy.putIn (h : Busy key desc (n + 1) s) {k : StoreKey} (ho : k.owner = some key)
    (hk : k.dataType.isSome = true) (value : Bytes) : Busy key desc n (s.putIn k value) := by
  refine ⟨fun key' hne => ?_, ?_, ?_⟩
  · apply KeyOk.insert
    · rw [ho]
      exact fun he => hne (Option.some.inj he).symm
    · exact h.others key' hne
  · show (s.store.insert k value).lookup _ = _
    rw [AList.lookup_insert_ne (ne_descriptor hk)]
    exact h.descriptor
  · have h1 := h.room
    have h2 := length_insert_le s.store k value
    show (s.store.insert k value).keys.length + n < 2 ^ 63
    omega

theorem Busy.delIn (h : Busy key desc n s) {k : StoreKey} (ho : k.owner = some key)
    (hk : k.dataType.isSome = true) : Busy key desc n (s.delIn k) := by
  refine ⟨fun key' hne => ?_, ?_, ?_⟩
  · apply KeyOk.erase
    · rw [ho]
      exact fun he => hne (Option.some.inj he).symm
    · exact h.others key' hne
  · show (s.store.erase k).lookup _ = _
    rw [AList.lookup_erase_ne (ne_descriptor hk)]
    exact h.descriptor
  · have h1 := h.room
    have h2 := length_erase_le s.store k
    show (s.store.erase k).keys.length + n < 2 ^ 63
    omega

/-- The data is as the descriptor says that the operation read. -/
theorem Opened.data (h : Opened key type desc op) (hl : KeyDescriptor.layout type ≠ .none)
    (hd : s.store.lookup (.descriptor key) = desc) (hk : KeyOk s.store key) :
    Data s.store key op.keyinfo := by
  unfold KeyOk at hk
  rw [hd] at hk
  cases desc with
  | none => exact Data.of_nothing hk (h.fresh rfl).1 (by rw [h.keyType_eq]; exact hl)
  | some bytes =>
    obtain ⟨d, ho, data, -⟩ := hk
    rw [h.known bytes rfl] at ho
    cases ho
    exact data

/-- Only a key without a descriptor has size zero, unless it is a versioned hash. -/
theorem Opened.none_of_size_zero (h : Opened key type (s.store.lookup (.descriptor key)) op)
    (hk : KeyOk s.store key) (ht : type ≠ .kVersionedHash) (hz : op.keySize = 0) :
    s.store.lookup (.descriptor key) = none := by
  rcases hd : s.store.lookup (.descriptor key) with _ | bytes
  · exact hd
  · unfold KeyOk at hk
    rw [hd] at hk
    obtain ⟨d, hd', -, hvh⟩ := hk
    rw [h.known bytes hd] at hd'
    cases hd'
    rw [h.keyType_eq] at hvh
    exact absurd (hvh hz) ht

/-- Without a descriptor there is nothing. -/
theorem KeyOk.nothing {store : Store} (h : KeyOk store key)
    (hn : store.lookup (.descriptor key) = none) : ∀ k ∈ store, k.owner ≠ some key := by
  unfold KeyOk at h
  rwa [hn] at h

theorem does_getKeyDescriptor (hk : KeyOk s.store key)
    {post : KeyDescriptor → StagingArea → Prop}
    (hnone : s.store.lookup (.descriptor key) = none → post {} s)
    (hsome : ∀ bytes d, s.store.lookup (.descriptor key) = some bytes →
      KeyDescriptor.ofBytes bytes = .ok d → Data s.store key d → post d s) :
    Does (getKeyDescriptor key) s post := by
  unfold KeyOk at hk
  rcases hd : s.store.lookup (.descriptor key) with _ | bytes
  · unfold getKeyDescriptor
    rw [does_bind, does_get, hd]
    exact hnone hd
  · rw [hd] at hk
    obtain ⟨d, ho, data, -⟩ := hk
    unfold getKeyDescriptor
    rw [does_bind, does_get, hd]
    dsimp only
    rw [ho]
    exact hsome bytes d hd ho data

theorem Data.not_empty {store : Store} {d : KeyDescriptor} (h : Data store key d) :
    d.empty = false := by
  unfold KeyDescriptor.empty
  rw [decide_eq_false_iff_not]
  intro ht
  have hs := h.sized
  unfold Sized at hs
  rw [ht] at hs
  exact hs

theorem does_start (hk : KeyOk s.store key) {post : WriteOperation → StagingArea → Prop}
    (h : ∀ op, (op.isValid = true → Opened key type (s.store.lookup (.descriptor key)) op) →
      post op s) : Does (WriteOperation.start key type) s post := by
  unfold WriteOperation.start
  rw [does_bind]
  refine does_getKeyDescriptor hk (fun hd => ?_) (fun bytes d hd ho data => ?_)
  · rw [hd] at h
    apply h
    intro _
    refine ⟨rfl, rfl, ?_, rfl, nofun, fun _ => ⟨?_, fun ht => if_neg ht⟩⟩
    · dsimp only
      split <;> rfl
    · dsimp only
      split <;> rfl
  · rw [data.not_empty]
    rw [hd] at h
    apply h
    intro hv
    refine ⟨rfl, hv, of_decide_eq_true hv, rfl, fun bytes' he => ?_, nofun⟩
    cases he
    exact ho

/-- An operation on a key of the right type starts with contents that it knows; on a key
of another type nothing happens. -/
theorem does_withOperation {α : Type} {otherwise : α} {body : WriteOperation → StagingM α}
    {post : α → StagingArea → Prop} (hi : Inv n s) (hl : KeyDescriptor.layout type ≠ .none)
    (hbody : ∀ op, Opened key type (s.store.lookup (.descriptor key)) op →
      Data s.store key op.keyinfo → Does (body op) s post)
    (hother : post otherwise s) : Does (withOperation key type otherwise body) s post := by
  unfold withOperation
  rw [does_bind]
  refine does_start (hi.ok key) fun op hop => ?_
  split
  · rename_i hv
    exact hbody op (hop hv) ((hop hv).data hl rfl (hi.ok key))
  · exact hother

theorem Data.size_nonneg {store : Store} {d : KeyDescriptor} (h : Data store key d) :
    0 ≤ d.sz := by
  have hh : ∀ {k : StoreKey}, Holds store k d.sz → 0 ≤ d.sz := by
    intro k hk
    unfold Holds at hk
    split at hk <;> omega
  have hs := h.sized
  unfold Sized at hs
  split at hs
  · exact hh hs
  · omega
  · omega
  · omega
  · omega
  · omega
  · exact hh hs.1
  · exact hs.elim
  · exact hs.elim

/-- A descriptor that is written is true when the contents are as it says. -/
theorem KeyOk.insert_descriptor {store : Store} {d : KeyDescriptor} {bytes : Bytes}
    (hd : Data store key d) (hs : d.serialize = .ok bytes) (hlt : d.sz < 2 ^ 63)
    (hz : d.sz = 0 → d.keyType = .kVersionedHash) :
    KeyOk (store.insert (.descriptor key) bytes) key := by
  obtain ⟨d', ho, h1, h2, h3⟩ := ofBytes_serialize hs hd.size_nonneg hlt
  have hsame : SameData key store (store.insert (.descriptor key) bytes) := by
    intro k _ ht
    rw [AList.lookup_insert_ne]
    rintro rfl
    cases ht
  unfold KeyOk
  rw [AList.lookup_insert]
  refine ⟨d', ho, hsame.data (hd.congr_descriptor h1.symm h2.symm fun hl => ?_), fun h0 => ?_⟩
  · exact ⟨(h3 hl).1.symm, (h3 hl).2.symm⟩
  · rw [h1]
    exact hz (by omega)

/-- A descriptor may go when there is no data. -/
theorem KeyOk.erase_descriptor {store : Store}
    (h : ∀ k ∈ store, k.owner = some key → k.dataType = none) :
    KeyOk (store.erase (.descriptor key)) key := by
  unfold KeyOk
  rw [AList.lookup_erase]
  intro k hk ho
  obtain ⟨hne, hm⟩ := AList.mem_erase.mp hk
  have hn := h k hm ho
  cases k <;> simp only [StoreKey.owner, StoreKey.dataType, Option.some.injEq, reduceCtorEq] at ho hn
  subst ho
  exact hne rfl

/-- A key with no data has nothing at all once the descriptor is gone. -/
theorem Data.erased {store : Store} {d : KeyDescriptor} (h : Data store key d) (hz : d.sz = 0) :
    ∀ k ∈ store.erase (.descriptor key), k.owner ≠ some key := by
  have hk : KeyOk (store.erase (.descriptor key)) key :=
    KeyOk.erase_descriptor fun k hk ho => h.nothing hz hk ho
  exact hk.nothing (AList.lookup_erase _ _)

theorem noMiscount_serialize {d : KeyDescriptor} {fault : Fault} (h : d.serialize = .error fault) :
    NoMiscount fault := by
  unfold KeyDescriptor.serialize at h
  split at h
  · cases h
  · cases hq : qdbAssert (d.startIndex ≤ d.endIndex) "startIndex <= endIndex" with
    | ok u =>
      rw [hq] at h
      cases h
    | error e =>
      rw [hq] at h
      unfold qdbAssert at hq
      split at hq
      · cases hq
      · cases hq
        cases h
        exact noMiscount_assertion _
  · cases h
  · cases h
    exact ⟨by decide, by decide⟩

/-- Changes to the descriptor of a key leave the other keys alone. -/
theorem Busy.inv_putIn (h : Busy key desc (n + 1) s) {bytes : Bytes}
    (hk : KeyOk (s.store.insert (.descriptor key) bytes) key) :
    Inv n (s.putIn (.descriptor key) bytes) := by
  refine ⟨fun key' => ?_, ?_⟩
  · by_cases he : key' = key
    · rw [he]
      exact hk
    · exact KeyOk.insert bytes (fun ho => he (Option.some.inj ho).symm) (h.others key' he)
  · have h1 := h.room
    have h2 := length_insert_le s.store (.descriptor key) bytes
    show (s.store.insert (.descriptor key) bytes).keys.length + n < 2 ^ 63
    omega

theorem Busy.inv_delIn (h : Busy key desc n s) (hk : KeyOk (s.store.erase (.descriptor key)) key) :
    Inv n (s.delIn (.descriptor key)) := by
  refine ⟨fun key' => ?_, ?_⟩
  · by_cases he : key' = key
    · rw [he]
      exact hk
    · exact KeyOk.erase (fun ho => he (Option.some.inj ho).symm) (h.others key' he)
  · have h1 := h.room
    have h2 := length_erase_le s.store (.descriptor key)
    show (s.store.erase (.descriptor key)).keys.length + n < 2 ^ 63
    omega

/-- `finalize`, once the contents are as the descriptor with the new size says. If nothing
is written, the descriptor in the store must say it already. -/
theorem does_finalize {newsize : Int} {force : Bool} (hr : op.redisKey = key)
    (hv : op.isValid = true) (hb : Busy key desc (n + 1) s)
    (hd : Data s.store key { op.keyinfo with sz := newsize }) (hlt : newsize < 2 ^ 63)
    (hsame : op.keyinfo.sz = newsize → force = false → ∀ bytes, desc = some bytes →
      KeyDescriptor.ofBytes bytes = .ok op.keyinfo)
    (hnone : op.keyinfo.sz = newsize → force = false → desc = none → newsize = 0 ∧
      op.keyinfo.keyType ≠ .kVersionedHash) :
    Does (op.finalize newsize force) s fun _ s' => Inv n s' ∧
      ∀ key' ≠ key, s'.store.lookup (.descriptor key') = s.store.lookup (.descriptor key') := by
  have h0 : 0 ≤ newsize := hd.size_nonneg
  subst hr
  unfold WriteOperation.finalize
  rw [WriteOperation.assertWritable_valid hv, pure_bind, if_neg (by omega)]
  split
  · rename_i hz
    rw [does_del]
    refine ⟨hb.mono (Nat.le_succ n) |>.inv_delIn
      (KeyOk.erase_descriptor fun k hk ho => hd.nothing hz.1 hk ho), fun key' hne => ?_⟩
    exact AList.lookup_erase_ne fun he => hne (StoreKey.descriptor.inj he)
  · rename_i hz
    have hvh : newsize = 0 → op.keyinfo.keyType = .kVersionedHash := by
      intro hn
      by_contra ht
      exact hz ⟨hn, ht⟩
    split
    · rw [does_bind]
      refine does_throwing (fun bytes hs => ?_) fun e he => noMiscount_serialize he
      rw [does_put]
      refine ⟨hb.inv_putIn (KeyOk.insert_descriptor hd hs hlt hvh), fun key' hne => ?_⟩
      exact AList.lookup_insert_ne fun he => hne (StoreKey.descriptor.inj he)
    · rename_i hw
      have hsz : op.keyinfo.sz = newsize := by
        by_contra hne
        exact hw (.inl hne)
      have hf : force = false := by
        cases force
        · rfl
        · exact absurd (.inr rfl) hw
      rw [does_pure]
      refine ⟨⟨fun key' => ?_, by have := hb.room; omega⟩, fun _ _ => rfl⟩
      by_cases he : key' = op.redisKey
      · rw [he]
        unfold KeyOk
        rw [hb.descriptor]
        cases hdesc : desc with
        | none => exact absurd (hnone hsz hf hdesc) hz
        | some bytes =>
          refine ⟨op.keyinfo, hsame hsz hf bytes hdesc, ?_, fun hk => hvh (by omega)⟩
          exact hd.congr_descriptor rfl hsz.symm fun _ => ⟨rfl, rfl⟩
      · exact hb.others key' he

/-- With nothing left, the descriptor goes, and no room is needed. -/
theorem does_finalize_zero {force : Bool} (hr : op.redisKey = key) (hv : op.isValid = true)
    (hb : Busy key desc n s) (hd : Data s.store key { op.keyinfo with sz := 0 })
    (ht : op.keyinfo.keyType ≠ .kVersionedHash) :
    Does (op.finalize 0 force) s fun _ s' =>
      Inv n s' ∧ s'.store.lookup (.descriptor key) = none := by
  subst hr
  unfold WriteOperation.finalize
  rw [WriteOperation.assertWritable_valid hv, pure_bind, if_neg (by omega), if_pos ⟨rfl, ht⟩,
    does_del]
  refine ⟨hb.inv_delIn (KeyOk.erase_descriptor fun k hk ho => hd.nothing rfl hk ho), ?_⟩
  exact AList.lookup_erase _ _

end

end quarkdb
