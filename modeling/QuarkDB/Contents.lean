-- What the store holds for a redis key, and when its descriptor tells the truth
-- about it.
import QuarkDB.Outcome
import QuarkDB.StateMachine
import QuarkDB.Tally

namespace quarkdb

open Endian StateMachine Tally

/-! ## Descriptors and contents -/

/-- The redis key that a key of the store belongs to. -/
def StoreKey.owner : StoreKey → Option Bytes
  | .descriptor key | .string key | .field _ key _ | .localityField key _ | .localityIndex key _
  | .lease key | .expirationEvent _ key => some key
  | .configuration _ | .clock | .lastApplied => none

/-- The type of the data that is stored there. -/
def StoreKey.dataType : StoreKey → Option KeyType
  | .string _ => some .kString
  | .field type _ _ => some type
  | .localityField _ _ | .localityIndex _ _ => some .kLocalityHash
  | .lease _ | .expirationEvent _ _ => some .kLease
  | .descriptor _ | .configuration _ | .clock | .lastApplied => none

/-- How many fields of the type a key has, or how long its value is. -/
def storedSize (store : Store) (key : Bytes) : KeyType → Option Int
  | .kString => (store.lookup (.string key)).map fun value => (value.length : Int)
  | .kLease => (store.lookup (.lease key)).map fun value => (value.length : Int)
  | .kLocalityHash => some (count store (isLocalityField key))
  | type => some (count store (isField type key))

/-- A key without a descriptor has nothing else either. A descriptor has the type of all
data of the key, and its size. -/
def Consistent (store : Store) : Prop :=
  ∀ key, match store.lookup (.descriptor key) with
    | none => ∀ k ∈ store, k.owner ≠ some key
    | some bytes => ∃ d, KeyDescriptor.ofBytes bytes = .ok d ∧
        storedSize store key d.keyType = some d.sz ∧
        ∀ k ∈ store, k.owner = some key → ∀ type, k.dataType = some type → type = d.keyType

/-! ## What the commands rely on -/

/-- A value of that length, and no empty one. -/
def Holds (store : Store) (k : StoreKey) (size : Int) : Prop :=
  match store.lookup k with
  | none => size = 0
  | some value => value ≠ [] ∧ size = value.length

/-- The items of a deque: one for each index from `first` on, up to `last`. -/
structure Window (store : Store) (key : Bytes) (first last : Nat) : Prop where
  ordered : first ≤ last
  bounded : last ≤ 2 ^ 64
  items : ∀ field, .field .kDeque key field ∈ store ↔
    ∃ j, first ≤ j ∧ j < last ∧ field = unsignedIntToBinaryString (UInt64.ofNat j)

/-- The contents have the size that a descriptor names, and are where it says. -/
def Sized (store : Store) (key : Bytes) (d : KeyDescriptor) : Prop :=
  match d.keyType with
  | .kString => Holds store (.string key) d.sz
  | .kHash => d.sz = count store (isField .kHash key)
  | .kSet => d.sz = count store (isField .kSet key)
  | .kVersionedHash => d.sz = count store (isField .kVersionedHash key)
  | .kDeque => d.sz = count store (isField .kDeque key) ∧
      (d.sz ≠ 0 → Window store key (d.startIndex.toNat + 1) d.endIndex.toNat ∧
        d.sz + d.startIndex.toNat + 1 = d.endIndex.toNat)
  | .kLocalityHash => d.sz = count store (isLocalityField key) ∧
      d.sz = count store (isLocalityIndex key)
  | .kLease => Holds store (.lease key) d.sz ∧
      ∀ deadline, .expirationEvent deadline key ∈ store ↔ d.sz ≠ 0 ∧ deadline = d.endIndex
  | .kNull | .kParseError => False

/-- All data of a key is of one type, and only types that have fields have fields. -/
structure Only (store : Store) (key : Bytes) (type : KeyType) : Prop where
  typed : ∀ k ∈ store, k.owner = some key → ∀ t, k.dataType = some t → t = type
  bearing : ∀ t field, .field t key field ∈ store → t.bearsFields = true

/-- The data of a key is as a descriptor says. -/
structure Data (store : Store) (key : Bytes) (d : KeyDescriptor) : Prop where
  only : Only store key d.keyType
  sized : Sized store key d

/-- The descriptor that a key has, if any, is true. -/
def KeyOk (store : Store) (key : Bytes) : Prop :=
  match store.lookup (.descriptor key) with
  | none => ∀ k ∈ store, k.owner ≠ some key
  | some bytes => ∃ d, KeyDescriptor.ofBytes bytes = .ok d ∧ Data store key d ∧
      (d.sz = 0 → d.keyType = .kVersionedHash)

theorem storedSize_of_holds {store : Store} {k : StoreKey} {size : Int} (h : Holds store k size)
    (hz : size ≠ 0) : (store.lookup k).map (fun value => (value.length : Int)) = some size := by
  unfold Holds at h
  split at h
  · exact absurd h hz
  · rename_i value hv
    rw [hv, h.2]
    rfl

theorem consistent_of_keyOk {store : Store} (h : ∀ key, KeyOk store key) : Consistent store := by
  intro key
  have hk := h key
  unfold KeyOk at hk
  split at hk
  · exact hk
  · obtain ⟨d, hd, data, hz⟩ := hk
    refine ⟨d, hd, ?_, data.only.typed⟩
    have hs := data.sized
    unfold Sized at hs
    split at hs <;> rename_i ht <;> rw [ht] at hz ⊢
    · exact storedSize_of_holds hs fun h0 => nomatch hz h0
    · exact congrArg some hs.symm
    · exact congrArg some hs.symm
    · exact congrArg some hs.symm
    · exact congrArg some hs.1.symm
    · exact congrArg some hs.1.symm
    · exact storedSize_of_holds hs.1 fun h0 => nomatch hz h0
    · exact hs.elim
    · exact hs.elim

/-! ## What the contents depend on -/

theorem owner_of_isField {type : KeyType} {key : Bytes} {k : StoreKey}
    (h : isField type key k = true) : k.owner = some key ∧ k.dataType = some type := by
  unfold isField at h
  split at h
  · obtain ⟨rfl, rfl⟩ := of_decide_eq_true h
    exact ⟨rfl, rfl⟩
  · cases h

theorem owner_of_isLocalityField {key : Bytes} {k : StoreKey} (h : isLocalityField key k = true) :
    k.owner = some key ∧ k.dataType = some .kLocalityHash := by
  unfold isLocalityField at h
  split at h
  · obtain rfl := of_decide_eq_true h
    exact ⟨rfl, rfl⟩
  · cases h

theorem owner_of_isLocalityIndex {key : Bytes} {k : StoreKey} (h : isLocalityIndex key k = true) :
    k.owner = some key ∧ k.dataType = some .kLocalityHash := by
  unfold isLocalityIndex at h
  split at h
  · obtain rfl := of_decide_eq_true h
    exact ⟨rfl, rfl⟩
  · cases h

/-- Two stores have the same data for a key. -/
def SameData (key : Bytes) (store store' : Store) : Prop :=
  ∀ k : StoreKey, k.owner = some key → k.dataType.isSome = true → store.lookup k = store'.lookup k

section

variable {key : Bytes} {store store' : Store}

theorem SameData.mem (h : SameData key store store') {k : StoreKey} (ho : k.owner = some key)
    (ht : k.dataType.isSome = true) : k ∈ store ↔ k ∈ store' := by
  rw [← AList.lookup_isSome, ← AList.lookup_isSome, h k ho ht]

theorem SameData.count (h : SameData key store store') {p : StoreKey → Bool} {type : KeyType}
    (hp : ∀ k, p k = true → k.owner = some key ∧ k.dataType = some type) :
    count store p = count store' p := by
  apply count_congr
  intro k hk
  obtain ⟨ho, ht⟩ := hp k hk
  apply h.mem ho
  rw [ht]
  rfl

theorem SameData.holds (h : SameData key store store') {k : StoreKey} (ho : k.owner = some key)
    (ht : k.dataType.isSome = true) {size : Int} (hs : Holds store k size) :
    Holds store' k size := by
  unfold Holds at hs ⊢
  rwa [← h k ho ht]

theorem SameData.window (h : SameData key store store') {first last : Nat}
    (hw : Window store key first last) : Window store' key first last := by
  refine ⟨hw.ordered, hw.bounded, fun field => ?_⟩
  rw [← h.mem (k := .field .kDeque key field) rfl rfl]
  exact hw.items field

theorem SameData.sized (h : SameData key store store') {d : KeyDescriptor}
    (hs : Sized store key d) : Sized store' key d := by
  unfold Sized at hs ⊢
  split at hs
  · exact h.holds rfl rfl hs
  · rwa [← h.count fun k => owner_of_isField]
  · rwa [← h.count fun k => owner_of_isField]
  · rwa [← h.count fun k => owner_of_isField]
  · rw [← h.count fun k => owner_of_isField]
    exact ⟨hs.1, fun hz => ⟨h.window (hs.2 hz).1, (hs.2 hz).2⟩⟩
  · rwa [← h.count fun k => owner_of_isLocalityField, ← h.count fun k => owner_of_isLocalityIndex]
  · refine ⟨h.holds rfl rfl hs.1, fun deadline => ?_⟩
    rw [← h.mem (k := .expirationEvent deadline key) rfl rfl]
    exact hs.2 deadline
  · exact hs
  · exact hs

theorem SameData.only (h : SameData key store store') {type : KeyType}
    (hd : Only store key type) : Only store' key type := by
  refine ⟨fun k hk ho t ht => ?_, fun t field hk => ?_⟩
  · have hm : k ∈ store := (h.mem ho (by rw [ht]; rfl)).mpr hk
    exact hd.typed k hm ho t ht
  · exact hd.bearing t field ((h.mem rfl rfl).mpr hk)

theorem SameData.data (h : SameData key store store') {d : KeyDescriptor}
    (hd : Data store key d) : Data store' key d := ⟨h.only hd.only, h.sized hd.sized⟩

theorem KeyOk.congr (h : ∀ k : StoreKey, k.owner = some key → store.lookup k = store'.lookup k)
    (hk : KeyOk store key) : KeyOk store' key := by
  have hs : SameData key store store' := fun k ho _ => h k ho
  unfold KeyOk at hk ⊢
  rw [← h (.descriptor key) rfl]
  split at hk
  · intro k hm ho
    refine hk k ?_ ho
    rw [← AList.lookup_isSome, h k ho, AList.lookup_isSome]
    exact hm
  · obtain ⟨d, hd, data, hz⟩ := hk
    exact ⟨d, hd, hs.data data, hz⟩

end

/-- The indices of a descriptor matter only for deques and leases. -/
theorem Data.congr_descriptor {store : Store} {key : Bytes} {d d' : KeyDescriptor}
    (h : Data store key d) (ht : d.keyType = d'.keyType) (hz : d.sz = d'.sz)
    (hi : KeyDescriptor.layout d.keyType = .indices →
      d.startIndex = d'.startIndex ∧ d.endIndex = d'.endIndex) : Data store key d' := by
  refine ⟨ht ▸ h.only, ?_⟩
  have hs := h.sized
  unfold Sized at hs ⊢
  rw [← ht, ← hz]
  split at hs <;> rename_i hd <;> try exact hs
  · obtain ⟨h1, h2⟩ := hi (by rw [hd]; rfl)
    rwa [← h1, ← h2]
  · obtain ⟨h1, h2⟩ := hi (by rw [hd]; rfl)
    rwa [← h2]

/-! ## What updates do to the contents -/

section

variable {store : Store} {key : Bytes} {d : KeyDescriptor}

theorem KeyOk.insert {k : StoreKey} (value : Bytes) (ho : k.owner ≠ some key)
    (h : KeyOk store key) : KeyOk (store.insert k value) key := by
  refine h.congr fun k' ho' => ?_
  rw [AList.lookup_insert_ne]
  rintro rfl
  exact ho ho'

theorem KeyOk.erase {k : StoreKey} (ho : k.owner ≠ some key) (h : KeyOk store key) :
    KeyOk (store.erase k) key := by
  refine h.congr fun k' ho' => ?_
  rw [AList.lookup_erase_ne]
  rintro rfl
  exact ho ho'

/-- A key with no data at all is as any empty descriptor says. -/
theorem Data.of_nothing (h : ∀ k ∈ store, k.owner ≠ some key) (hz : d.sz = 0)
    (ht : KeyDescriptor.layout d.keyType ≠ .none) : Data store key d := by
  have hl : ∀ k : StoreKey, k.owner = some key → k ∉ store := fun k ho hk => h k hk ho
  have hn : ∀ k : StoreKey, k.owner = some key → store.lookup k = none :=
    fun k ho => AList.lookup_eq_none.mpr (hl k ho)
  have hc : ∀ {p : StoreKey → Bool} {type : KeyType},
      (∀ k, p k = true → k.owner = some key ∧ k.dataType = some type) → count store p = 0 := by
    intro p type hp
    rw [count_eq_zero]
    intro k hk
    by_contra hpk
    exact h k hk (hp k (by simpa using hpk)).1
  refine ⟨⟨fun k hk ho => absurd ho (h k hk), fun _ _ hk => absurd rfl (h _ hk)⟩, ?_⟩
  unfold Sized
  rw [hz]
  split
  · rw [Holds, hn _ rfl]
  · rw [hc fun k => owner_of_isField]
    rfl
  · rw [hc fun k => owner_of_isField]
    rfl
  · rw [hc fun k => owner_of_isField]
    rfl
  · rw [hc fun k => owner_of_isField]
    exact ⟨rfl, fun h0 => absurd rfl h0⟩
  · rw [hc fun k => owner_of_isLocalityField, hc fun k => owner_of_isLocalityIndex]
    exact ⟨rfl, rfl⟩
  · refine ⟨by rw [Holds, hn _ rfl], fun deadline => ?_⟩
    constructor
    · intro hk
      exact absurd hk (hl _ rfl)
    · intro h0
      exact absurd rfl h0.1
  · rename_i hd
    exact ht (by rw [hd]; rfl)
  · rename_i hd
    exact ht (by rw [hd]; rfl)

theorem Holds.notMem {k : StoreKey} (h : Holds store k 0) : k ∉ store := by
  unfold Holds at h
  split at h
  · rename_i hn
    exact AList.lookup_eq_none.mp hn
  · obtain ⟨hne, hz⟩ := h
    exact absurd (List.length_eq_zero_iff.mp (by omega)) hne

/-- When the size is zero, no data is left. -/
theorem Data.nothing (h : Data store key d) (hz : d.sz = 0) {k : StoreKey} (hk : k ∈ store)
    (ho : k.owner = some key) : k.dataType = none := by
  rcases ht : k.dataType with _ | type
  · rfl
  exfalso
  have hd := h.only.typed k hk ho type ht
  have hs := h.sized
  unfold Sized at hs
  rw [← hd, hz] at hs
  have hc : ∀ {p : StoreKey → Bool}, p k = true → (0 : Int) ≠ count store p := by
    intro p hp h0
    have := count_pos hk hp
    omega
  cases k with
  | descriptor key' => cases ht
  | configuration key' => cases ht
  | clock => cases ht
  | lastApplied => cases ht
  | string key' =>
    cases ho
    cases ht
    exact Holds.notMem hs hk
  | lease key' =>
    cases ho
    cases ht
    exact Holds.notMem hs.1 hk
  | expirationEvent deadline key' =>
    cases ho
    cases ht
    exact ((hs.2 deadline).mp hk).1 rfl
  | localityField key' field =>
    cases ho
    cases ht
    exact hc (by simp [isLocalityField]) hs.1
  | localityIndex key' field =>
    cases ho
    cases ht
    exact hc (by simp [isLocalityIndex]) hs.2
  | field type' key' field =>
    cases ho
    cases ht
    have hb := h.only.bearing type field hk
    have hp : isField type key (.field type key field) = true := by simp [isField]
    cases type with
    | kHash => exact hc hp hs
    | kSet => exact hc hp hs
    | kVersionedHash => exact hc hp hs
    | kDeque => exact hc hp hs.1
    | kNull | kParseError | kString | kLocalityHash | kLease => cases hb

theorem Only.insert {type : KeyType} (h : Only store key type) {k : StoreKey} (value : Bytes)
    (hk : k.dataType = some type) (hb : ∀ t field, k = .field t key field → t.bearsFields = true) :
    Only (store.insert k value) key type := by
  constructor
  · intro k' hk' ho t ht
    rw [AList.mem_insert] at hk'
    rcases hk' with rfl | hm
    · rw [hk] at ht
      exact (Option.some.inj ht).symm
    · exact h.typed k' hm ho t ht
  · intro t field hm
    rw [AList.mem_insert] at hm
    rcases hm with he | hm
    · exact hb t field he.symm
    · exact h.bearing t field hm

theorem Only.erase {type : KeyType} (h : Only store key type) (k : StoreKey) :
    Only (store.erase k) key type :=
  ⟨fun k' hk' => h.typed k' (AList.mem_erase.mp hk').2,
    fun t field hm => h.bearing t field (AList.mem_erase.mp hm).2⟩

/-- The types whose descriptors count fields, and nothing more. -/
def Plain (type : KeyType) : Prop := type = .kHash ∨ type = .kSet ∨ type = .kVersionedHash

theorem Plain.bearsFields {type : KeyType} (h : Plain type) : type.bearsFields = true := by
  rcases h with rfl | rfl | rfl <;> rfl

theorem sized_plain (h : Plain d.keyType) :
    Sized store key d ↔ d.sz = count store (isField d.keyType key) := by
  unfold Sized
  rcases h with h | h | h <;> rw [h]

theorem isField_self (type : KeyType) (key field : Bytes) :
    isField type key (.field type key field) = true := by
  simp [isField]

/-- A field more, unless it was there. -/
theorem Data.insert_plain (h : Data store key d) (hp : Plain d.keyType) (field value : Bytes) :
    Data (store.insert (.field d.keyType key field) value) key
      { d with sz := d.sz + if .field d.keyType key field ∈ store then 0 else 1 } := by
  refine ⟨h.only.insert value rfl ?_, ?_⟩
  · intro t field' he
    cases he
    exact hp.bearsFields
  · have hs := (sized_plain hp).mp h.sized
    rw [sized_plain (by exact hp)]
    dsimp only
    split
    · rename_i hm
      rw [count_insert_of_mem value hm, hs]
      omega
    · rename_i hm
      rw [count_insert_of_notMem value hm (isField_self _ _ _), hs]
      omega

/-- A field less. -/
theorem Data.erase_plain (h : Data store key d) (hp : Plain d.keyType) {field : Bytes}
    (hm : .field d.keyType key field ∈ store) :
    Data (store.erase (.field d.keyType key field)) key { d with sz := d.sz - 1 } := by
  refine ⟨h.only.erase _, ?_⟩
  have hs := (sized_plain hp).mp h.sized
  rw [sized_plain (by exact hp)]
  have hc := count_erase_of_mem hm (isField_self d.keyType key field)
  dsimp only
  omega

theorem Data.insert_string (h : Data store key d) (ht : d.keyType = .kString) {value : Bytes}
    (hv : value ≠ []) :
    Data (store.insert (.string key) value) key { d with sz := value.length } := by
  refine ⟨h.only.insert value (by rw [ht]; rfl) (fun _ _ he => nomatch he), ?_⟩
  unfold Sized
  rw [ht]
  dsimp only
  unfold Holds
  rw [AList.lookup_insert]
  exact ⟨hv, rfl⟩

/-! ### Locality hashes -/

/-- A locality hash with so many fields, and so many indices. -/
structure Localities (store : Store) (key : Bytes) (fields indices : Int) : Prop where
  only : Only store key .kLocalityHash
  fields_eq : fields = count store (isLocalityField key)
  indices_eq : indices = count store (isLocalityIndex key)

theorem Localities.data {size : Int} (h : Localities store key size size)
    (ht : d.keyType = .kLocalityHash) : Data store key { d with sz := size } := by
  refine ⟨by rw [ht]; exact h.only, ?_⟩
  unfold Sized
  rw [ht]
  exact ⟨h.fields_eq, h.indices_eq⟩

theorem Data.localities (h : Data store key d) (ht : d.keyType = .kLocalityHash) :
    Localities store key d.sz d.sz := by
  have hs := h.sized
  unfold Sized at hs
  rw [ht] at hs
  exact ⟨ht ▸ h.only, hs.1, hs.2⟩

variable {fields indices : Int}

theorem Localities.insert_field (h : Localities store key fields indices) (x value : Bytes) :
    Localities (store.insert (.localityField key x) value) key
      (fields + if .localityField key x ∈ store then 0 else 1) indices := by
  refine ⟨h.only.insert value rfl (fun _ _ he => nomatch he), ?_, ?_⟩
  · split
    · rename_i hm
      rw [count_insert_of_mem value hm, h.fields_eq]
      omega
    · rename_i hm
      rw [count_insert_of_notMem value hm (by simp [isLocalityField]), h.fields_eq]
      omega
  · rw [count_insert_of_not]
    · exact h.indices_eq
    · rfl

theorem Localities.insert_index (h : Localities store key fields indices) (x value : Bytes) :
    Localities (store.insert (.localityIndex key x) value) key fields
      (indices + if .localityIndex key x ∈ store then 0 else 1) := by
  refine ⟨h.only.insert value rfl (fun _ _ he => nomatch he), ?_, ?_⟩
  · rw [count_insert_of_not]
    · exact h.fields_eq
    · rfl
  · split
    · rename_i hm
      rw [count_insert_of_mem value hm, h.indices_eq]
      omega
    · rename_i hm
      rw [count_insert_of_notMem value hm (by simp [isLocalityIndex]), h.indices_eq]
      omega

theorem Localities.erase_field (h : Localities store key fields indices) {x : Bytes}
    (hm : .localityField key x ∈ store) :
    Localities (store.erase (.localityField key x)) key (fields - 1) indices := by
  have hc := count_erase_of_mem (p := isLocalityField key) hm (by simp [isLocalityField])
  have hf := h.fields_eq
  refine ⟨h.only.erase _, by omega, ?_⟩
  rw [count_erase_of_not]
  · exact h.indices_eq
  · rfl

theorem Localities.erase_index (h : Localities store key fields indices) {x : Bytes}
    (hm : .localityIndex key x ∈ store) :
    Localities (store.erase (.localityIndex key x)) key fields (indices - 1) := by
  have hc := count_erase_of_mem (p := isLocalityIndex key) hm (by simp [isLocalityIndex])
  have hi := h.indices_eq
  refine ⟨h.only.erase _, ?_, by omega⟩
  rw [count_erase_of_not]
  · exact h.fields_eq
  · rfl

/-! ### Deques -/

theorem length_unsignedIntToBinaryString (n : UInt64) :
    (unsignedIntToBinaryString n).length = 8 := by
  unfold unsignedIntToBinaryString
  rw [List.length_reverse, length_toLittle]

theorem unsignedIntToBinaryString_ne_nil (n : UInt64) : unsignedIntToBinaryString n ≠ [] :=
  List.ne_nil_of_length_pos (by rw [length_unsignedIntToBinaryString]; omega)

theorem binaryStringToUnsignedInt_unsignedIntToBinaryString (n : UInt64) :
    binaryStringToUnsignedInt (unsignedIntToBinaryString n) = n := by
  unfold binaryStringToUnsignedInt unsignedIntToBinaryString
  rw [List.reverse_reverse, ofLittle_toLittle (by have := n.toNat_lt; omega)]
  exact UInt64.ofNat_toNat

theorem index_injective {i j : Nat} (hi : i < 2 ^ 64) (hj : j < 2 ^ 64)
    (h : unsignedIntToBinaryString (UInt64.ofNat i) = unsignedIntToBinaryString (UInt64.ofNat j)) :
    i = j := by
  have he := congrArg binaryStringToUnsignedInt h
  rw [binaryStringToUnsignedInt_unsignedIntToBinaryString,
    binaryStringToUnsignedInt_unsignedIntToBinaryString] at he
  have := congrArg UInt64.toNat he
  rwa [UInt64.toNat_ofNat', UInt64.toNat_ofNat', Nat.mod_eq_of_lt hi, Nat.mod_eq_of_lt hj] at this

/-- The field that holds the item with an index. -/
abbrev itemKey (key : Bytes) (j : Nat) : StoreKey :=
  .field .kDeque key (unsignedIntToBinaryString (UInt64.ofNat j))

/-- A deque with the items from `first` on, up to `last`. -/
structure Deque (store : Store) (key : Bytes) (first last : Nat) : Prop where
  only : Only store key .kDeque
  window : Window store key first last
  size_eq : first + count store (isField .kDeque key) = last

variable {first last : Nat}

theorem Deque.mem_iff (h : Deque store key first last) {j : Nat} (hj : j < 2 ^ 64) :
    itemKey key j ∈ store ↔ first ≤ j ∧ j < last := by
  have hb := h.window.bounded
  rw [h.window.items]
  constructor
  · rintro ⟨i, h1, h2, he⟩
    have hi := index_injective (by omega) hj he.symm
    omega
  · rintro ⟨h1, h2⟩
    exact ⟨j, h1, h2, rfl⟩

theorem Only.insert_item (h : Only store key .kDeque) (field value : Bytes) :
    Only (store.insert (.field .kDeque key field) value) key .kDeque := by
  refine h.insert value rfl ?_
  intro t field' he
  cases he
  rfl

theorem Deque.insert_last (h : Deque store key first last) (value : Bytes) (hl : last < 2 ^ 64) :
    Deque (store.insert (itemKey key last) value) key first (last + 1) := by
  have hn : itemKey key last ∉ store := by
    rw [h.mem_iff hl]
    omega
  have ho := h.window.ordered
  have hs := h.size_eq
  refine ⟨h.only.insert_item _ _, ⟨by omega, by omega, fun field => ?_⟩, ?_⟩
  · rw [AList.mem_insert, h.window.items]
    constructor
    · rintro (he | ⟨j, h1, h2, he⟩)
      · exact ⟨last, ho, by omega, by cases he; rfl⟩
      · exact ⟨j, h1, by omega, he⟩
    · rintro ⟨j, h1, h2, he⟩
      rcases Nat.lt_or_ge j last with hj | hj
      · exact .inr ⟨j, h1, hj, he⟩
      · obtain rfl : j = last := by omega
        exact .inl (by rw [he])
  · rw [count_insert_of_notMem value hn (isField_self _ _ _)]
    omega

theorem Deque.insert_first (h : Deque store key (first + 1) last) (value : Bytes) :
    Deque (store.insert (itemKey key first) value) key first last := by
  have ho := h.window.ordered
  have hb := h.window.bounded
  have hs := h.size_eq
  have hn : itemKey key first ∉ store := by
    rw [h.mem_iff (by omega)]
    omega
  refine ⟨h.only.insert_item _ _, ⟨by omega, hb, fun field => ?_⟩, ?_⟩
  · rw [AList.mem_insert, h.window.items]
    constructor
    · rintro (he | ⟨j, h1, h2, he⟩)
      · exact ⟨first, by omega, by omega, by cases he; rfl⟩
      · exact ⟨j, by omega, by omega, he⟩
    · rintro ⟨j, h1, h2, he⟩
      rcases Nat.lt_or_ge first j with hj | hj
      · exact .inr ⟨j, hj, h2, he⟩
      · obtain rfl : j = first := by omega
        exact .inl (by rw [he])
  · rw [count_insert_of_notMem value hn (isField_self _ _ _)]
    omega

theorem Deque.erase_first (h : Deque store key first last) (hl : first < last) :
    Deque (store.erase (itemKey key first)) key (first + 1) last := by
  have hb := h.window.bounded
  have hs := h.size_eq
  have hm : itemKey key first ∈ store := (h.mem_iff (by omega)).mpr (by omega)
  have hc := count_erase_of_mem hm (isField_self .kDeque key _)
  refine ⟨h.only.erase _, ⟨hl, hb, fun field => ?_⟩, by omega⟩
  rw [AList.mem_erase, h.window.items]
  constructor
  · rintro ⟨hne, j, h1, h2, rfl⟩
    have : j ≠ first := fun he => hne (by rw [he])
    exact ⟨j, by omega, h2, rfl⟩
  · rintro ⟨j, h1, h2, rfl⟩
    refine ⟨fun he => ?_, j, by omega, h2, rfl⟩
    have := index_injective (by omega) (by omega) (StoreKey.field.inj he).2.2
    omega

theorem Deque.erase_last (h : Deque store key first (last + 1)) (hl : first ≤ last) :
    Deque (store.erase (itemKey key last)) key first last := by
  have hb := h.window.bounded
  have hs := h.size_eq
  have hm : itemKey key last ∈ store := (h.mem_iff (by omega)).mpr (by omega)
  have hc := count_erase_of_mem hm (isField_self .kDeque key _)
  refine ⟨h.only.erase _, ⟨hl, by omega, fun field => ?_⟩, by omega⟩
  rw [AList.mem_erase, h.window.items]
  constructor
  · rintro ⟨hne, j, h1, h2, rfl⟩
    have : j ≠ last := fun he => hne (by rw [he])
    exact ⟨j, h1, by omega, rfl⟩
  · rintro ⟨j, h1, h2, rfl⟩
    refine ⟨fun he => ?_, j, h1, by omega, rfl⟩
    have := index_injective (by omega) (by omega) (StoreKey.field.inj he).2.2
    omega

theorem Data.deque (h : Data store key d) (ht : d.keyType = .kDeque) (hz : d.sz ≠ 0) :
    Deque store key (d.startIndex.toNat + 1) d.endIndex.toNat ∧
      d.sz + d.startIndex.toNat + 1 = d.endIndex.toNat := by
  have hs := h.sized
  unfold Sized at hs
  rw [ht] at hs
  obtain ⟨hc, hw⟩ := hs
  obtain ⟨hw, he⟩ := hw hz
  exact ⟨⟨ht ▸ h.only, hw, by omega⟩, he⟩

theorem Deque.data (h : Deque store key first last) (ht : d.keyType = .kDeque)
    (hz : first + d.sz = last)
    (hi : first < last → d.startIndex.toNat + 1 = first ∧ d.endIndex.toNat = last) :
    Data store key d := by
  have hs := h.size_eq
  refine ⟨ht ▸ h.only, ?_⟩
  unfold Sized
  rw [ht]
  refine ⟨by omega, fun h0 => ?_⟩
  obtain ⟨h1, h2⟩ := hi (by omega)
  rw [h1, h2]
  exact ⟨h.window, by omega⟩

/-- A deque with no items can be anywhere. -/
theorem Deque.of_nothing (h : ∀ k ∈ store, k.owner ≠ some key) (hb : first ≤ 2 ^ 64) :
    Deque store key first first := by
  refine ⟨⟨fun k hk ho => absurd ho (h k hk), fun _ _ hk => absurd rfl (h _ hk)⟩,
    ⟨Nat.le_refl _, hb, fun field => ?_⟩, ?_⟩
  · constructor
    · intro hk
      exact absurd rfl (h _ hk)
    · rintro ⟨j, h1, h2, -⟩
      omega
  · have hc : count store (isField .kDeque key) = 0 := by
      rw [count_eq_zero]
      intro k hk
      by_contra hp
      exact h k hk (owner_of_isField (by simpa using hp)).1
    omega

end

end quarkdb
