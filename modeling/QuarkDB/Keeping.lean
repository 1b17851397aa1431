-- Loads in normal mode: each of them is stored as in bulkload mode, and the descriptor of
-- its key is what the data of the key asks for.
import QuarkDB.Loading

namespace quarkdb

open Endian StateMachine StagingArea Tally Outcome RedisDispatcher

/-! ## What a descriptor has to say -/

/-- The number of fields, or the length of the value. -/
def sizeOfKey (store : Store) (key : Bytes) (type : KeyType) : Int :=
  (storedSize store key type).getD 0

def describedAs (type : KeyType) (size : Int) : Option Bytes :=
  if size = 0 then none else some (type.toChar :: bigInt size)

/-- The descriptor that the data of a key asks for, when the key has this type. -/
def describe (typeOf : Bytes → KeyType) (store : Store) (key : Bytes) : Option Bytes :=
  describedAs (typeOf key) (sizeOfKey store key (typeOf key))

/-- The types that loads are about. -/
def IsLoaded (type : KeyType) : Prop :=
  type = .kString ∨ type = .kHash ∨ type = .kSet ∨ type = .kLocalityHash

theorem IsLoaded.layout {type : KeyType} (h : IsLoaded type) :
    KeyDescriptor.layout type = .size := by
  rcases h with rfl | rfl | rfl | rfl <;> rfl

theorem serialize_size {type : KeyType} (h : IsLoaded type) (size : Int) :
    KeyDescriptor.serialize { keyType := type, sz := size } = .ok (type.toChar :: bigInt size) := by
  unfold KeyDescriptor.serialize
  rw [h.layout]

theorem ofBytes_size {type : KeyType} (h : IsLoaded type) {size : Int} (h0 : 0 ≤ size)
    (h1 : size < 2 ^ 63) :
    KeyDescriptor.ofBytes (type.toChar :: bigInt size) = .ok { keyType := type, sz := size } := by
  have hb : ofBigInt ((bigInt size).take 8) = size := by
    rw [List.take_of_length_le (by simp), ofBigInt_bigInt (by omega) h1]
  unfold KeyDescriptor.ofBytes
  dsimp only
  have hne : KeyDescriptor.layout type ≠ .none := by
    rw [h.layout]
    exact KeyDescriptor.Layout.noConfusion
  rw [parseKeyType_of_layout hne, h.layout, hb, length_bigInt]
  rfl

/-! ## Sizes -/

section

variable {store store' : Store} {key : Bytes} {type : KeyType}

theorem sizeOfKey_congr (h : SameData key store store') : sizeOfKey store key type =
    sizeOfKey store' key type := by
  have hf : ∀ type, count store (isField type key) = count store' (isField type key) :=
    fun type => h.count fun k => owner_of_isField
  have hl : count store (isLocalityField key) = count store' (isLocalityField key) :=
    h.count fun k => owner_of_isLocalityField
  unfold sizeOfKey storedSize
  rw [h (.string key) rfl rfl, h (.lease key) rfl rfl, hl]
  cases type <;> dsimp only <;> rw [hf]

theorem sizeOfKey_field (hb : type.bearsFields = true) (store : Store) (key : Bytes) :
    sizeOfKey store key type = count store (isField type key) := by
  cases type <;> first | rfl | cases hb

theorem sizeOfKey_string (store : Store) (key : Bytes) :
    sizeOfKey store key .kString =
      ((store.lookup (.string key)).map fun value => (value.length : Int)).getD 0 := rfl

theorem sizeOfKey_nonneg (hl : IsLoaded type) (store : Store) (key : Bytes) :
    0 ≤ sizeOfKey store key type := by
  rcases hl with rfl | rfl | rfl | rfl
  · unfold sizeOfKey storedSize
    cases store.lookup (.string key) with
    | none => exact Int.le_refl 0
    | some value => exact Int.natCast_nonneg _
  · exact Int.natCast_nonneg _
  · exact Int.natCast_nonneg _
  · exact Int.natCast_nonneg _

theorem sizeOfKey_insert_field (hb : type.bearsFields = true) (name value : Bytes) :
    sizeOfKey (store.insert (.field type key name) value) key type =
      sizeOfKey store key type + if .field type key name ∈ store then 0 else 1 := by
  rw [sizeOfKey_field hb, sizeOfKey_field hb]
  split
  · rename_i hm
    rw [count_insert_of_mem value hm, Int.add_zero]
  · rename_i hm
    rw [count_insert_of_notMem value hm (isField_self _ _ _)]
    exact Int.natCast_succ _

end

/-- What items leave alone. -/
theorem putItems_sameData {items : List LoadItem} {key : Bytes} (store : Store)
    (h : ∀ item ∈ items, item.key ≠ key) : SameData key store (putItems store items) := by
  intro k ho _
  rw [putItems_eq, lookup_putAll_of_notMem]
  intro hm
  obtain ⟨e, he, rfl⟩ := List.mem_map.mp hm
  obtain ⟨item, hi, he⟩ := List.mem_flatMap.mp he
  apply h item hi
  cases item <;>
    simp only [LoadItem.records, List.mem_cons, List.not_mem_nil, or_false] at he
  · subst he
    exact Option.some.inj ho
  · subst he
    exact Option.some.inj ho
  · rcases he with rfl | rfl
    · exact Option.some.inj ho
    · exact Option.some.inj ho

/-! ## The state while a command runs -/

/-- Apart from descriptors the store has the data, and it has these descriptors. -/
structure Alike (data : Store) (descriptors : Bytes → Option Bytes) (store : Store) : Prop where
  same : ∀ k : StoreKey, (∀ key, k ≠ .descriptor key) → store.lookup k = data.lookup k
  described : ∀ key, store.lookup (.descriptor key) = descriptors key

section

variable {data store : Store} {descriptors : Bytes → Option Bytes} {key : Bytes}

theorem not_descriptor {k : StoreKey} (h : k.dataType.isSome = true) (key : Bytes) :
    k ≠ .descriptor key := by
  rintro rfl
  cases h

theorem Alike.insert (h : Alike data descriptors store) {k : StoreKey}
    (hk : k.dataType.isSome = true) (value : Bytes) :
    Alike (data.insert k value) descriptors (store.insert k value) := by
  constructor
  · intro k' hk'
    by_cases he : k' = k
    · rw [he, AList.lookup_insert, AList.lookup_insert]
    · rw [AList.lookup_insert_ne he, AList.lookup_insert_ne he]
      exact h.same k' hk'
  · intro key
    rw [AList.lookup_insert_ne (not_descriptor hk key).symm]
    exact h.described key

theorem Alike.mem (h : Alike data descriptors store) {k : StoreKey}
    (hk : k.dataType.isSome = true) : k ∈ store ↔ k ∈ data := by
  rw [← AList.lookup_isSome, ← AList.lookup_isSome, h.same k (not_descriptor hk)]

/-- What is put again changes nothing. -/
theorem Alike.insert_same (h : Alike data descriptors store) {k : StoreKey} {value : Bytes}
    (hv : data.lookup k = some value) : Alike (data.insert k value) descriptors store := by
  refine ⟨fun k' hk' => ?_, h.described⟩
  rw [h.same k' hk']
  by_cases he : k' = k
  · rw [he, AList.lookup_insert, hv]
  · rw [AList.lookup_insert_ne he]

end

/-! ## The start and the end of a command -/

section

variable {data data' : Store} {typeOf : Bytes → KeyType} {key : Bytes} {type : KeyType}
  {s : StagingArea} {fault : Fault → Prop}

/-- The operation on a key of this type and size. -/
def WriteOperation.onKey (key : Bytes) (type : KeyType) (size : Int) (redisKeyExists : Bool) :
    WriteOperation where
  redisKey := key
  keyinfo := { keyType := type, sz := size }
  redisKeyExists := redisKeyExists
  isValid := true

/-- The operation starts with the type and the size that the data asks for. -/
theorem yields_withOperation_alike {α : Type} {otherwise : α} {body : WriteOperation → StagingM α}
    {post : α → StagingArea → Prop} (h : Alike data (describe typeOf data) s.store)
    (ht : typeOf key = type) (hl : IsLoaded type) (hb : sizeOfKey data key type < 2 ^ 63)
    (hbody : ∀ b, Yields (body (.onKey key type (sizeOfKey data key type) b)) s post fault) :
    Yields (withOperation key type otherwise body) s post fault := by
  have hd := h.described key
  unfold describe describedAs at hd
  rw [ht] at hd
  split at hd
  · rename_i hz
    have hne : type ≠ .kVersionedHash := by
      rintro rfl
      cases hl.layout
    have hop : WriteOperation.fresh key type = .onKey key type (sizeOfKey data key type) false := by
      unfold WriteOperation.fresh WriteOperation.onKey
      rw [if_neg hne, hz]
    rw [yields_withOperation_fresh hd, hop]
    exact hbody false
  · have hne : type ≠ .kNull := by
      rintro rfl
      cases hl.layout
    rw [yields_withOperation_known hd (ofBytes_size hl (sizeOfKey_nonneg hl data key) hb) rfl hne]
    exact hbody true

/-- What the end of the command writes is what the data asks for now. -/
theorem yields_finalize_alike (h : Alike data' (describe typeOf data) s.store)
    (ht : typeOf key = type) (hl : IsLoaded type)
    (hother : ∀ key' ≠ key, SameData key' data data') (hpos : 0 < sizeOfKey data' key type)
    (b : Bool) :
    Yields ((WriteOperation.onKey key type (sizeOfKey data key type) b).finalize
        (sizeOfKey data' key type) false) s
      (fun _ s' => Alike data' (describe typeOf data') s'.store) fault := by
  have hd : ∀ key' ≠ key, describe typeOf data key' = describe typeOf data' key' := by
    intro key' hne
    unfold describe
    rw [sizeOfKey_congr (hother key' hne)]
  have hnew : describe typeOf data' key =
      some (type.toChar :: bigInt (sizeOfKey data' key type)) := by
    unfold describe describedAs
    rw [ht, if_neg (by omega)]
  by_cases he : sizeOfKey data key type = sizeOfKey data' key type
  · -- the size is what it was
    rw [← he]
    refine (yields_finalize_kept rfl (by show 0 ≤ sizeOfKey data key type; omega)
      (fun hz => ?_) rfl).mpr ⟨h.same, fun key' => ?_⟩
    · have hz : sizeOfKey data key type = 0 := hz
      omega
    · rw [h.described key']
      by_cases hk : key' = key
      · unfold describe
        rw [hk, ht, he]
      · exact hd key' hk
  · have hs := serialize_size hl (sizeOfKey data' key type)
    refine (yields_finalize_written rfl (by omega) (fun hz => by omega) (.inl he) hs).mpr
      ⟨fun k hk => ?_, fun key' => ?_⟩
    · show (s.store.insert _ _).lookup k = _
      rw [AList.lookup_insert_ne (hk _)]
      exact h.same k hk
    · show (s.store.insert (.descriptor key) _).lookup _ = _
      by_cases hk : key' = key
      · rw [hk, AList.lookup_insert, hnew]
      · rw [AList.lookup_insert_ne fun hc => hk (StoreKey.descriptor.inj hc), h.described key']
        exact hd key' hk

end

/-! ## Sensible items -/

/-- An item as a request of the right form names it. -/
def LoadItem.Whole : LoadItem → Prop
  | .ofValue key value => key ≠ [] ∧ value ≠ [] ∧ value.length < 2 ^ 63
  | .ofField type key name value =>
    key ≠ [] ∧ name ≠ [] ∧ (type = .kHash ∨ type = .kSet ∧ value = ascii "1")
  | .ofLocality key hint name _ => key ≠ [] ∧ hint ≠ [] ∧ name ≠ []

structure Sensible (items : List LoadItem) : Prop where
  whole : ∀ item ∈ items, item.Whole
  oneType : ∀ a ∈ items, ∀ b ∈ items, a.key = b.key → a.type = b.type
  oneHint : ∀ key name hint hint' value value', .ofLocality key hint name value ∈ items →
    .ofLocality key hint' name value' ∈ items → hint = hint'
  decodes : ∀ item ∈ items, item.Decodes

theorem Sensible.mono {items items' : List LoadItem} (h : Sensible items')
    (hs : ∀ item ∈ items, item ∈ items') : Sensible items where
  whole item hi := h.whole item (hs item hi)
  oneType a ha b hb := h.oneType a (hs a ha) b (hs b hb)
  oneHint key name hint hint' value value' h1 h2 :=
    h.oneHint key name hint hint' value value' (hs _ h1) (hs _ h2)
  decodes item hi := h.decodes item (hs item hi)

theorem LoadItem.Whole.isLoaded {item : LoadItem} (h : item.Whole) : IsLoaded item.type := by
  cases item with
  | ofValue key value => exact .inl rfl
  | ofField type key name value =>
    obtain ⟨-, -, rfl | ⟨rfl, -⟩⟩ := h
    · exact .inr (.inl rfl)
    · exact .inr (.inr (.inl rfl))
  | ofLocality key hint name value => exact .inr (.inr (.inr rfl))

theorem LoadItem.Whole.key_ne {item : LoadItem} (h : item.Whole) : item.key ≠ [] := by
  cases item <;> exact h.1

/-- Where one name ends and the next one begins is seen in the encoding. -/
theorem hint_injective {h h' f f' : Bytes} (hh : h ≠ []) (hh' : h' ≠ []) (hl : ¬ EndIsLost h f)
    (hl' : ¬ EndIsLost h' f')
    (he : appendEscapedString [] h ++ f = appendEscapedString [] h' ++ f') : h = h' ∧ f = f' := by
  have hv : ∀ n g : Bytes, appendEscapedString [] n ++ g = escapeHashes n ++ (hash :: hash :: g) := by
    intro n g
    simp [appendEscapedString]
  rw [hv, hv] at he
  obtain ⟨e, hp, hr⟩ := EscapedPrefixExtractor.parse_reads hh hl
  obtain ⟨e', hp', hr'⟩ := EscapedPrefixExtractor.parse_reads hh' hl'
  rw [he, hp', Except.ok.injEq] at hp
  subst hp
  have ho := hr.original
  have hs := hr.suffix
  rw [hr'.original, Except.ok.injEq] at ho
  rw [hr'.suffix, Except.ok.injEq] at hs
  exact ⟨ho.symm, hs.symm⟩

section

variable {items : List LoadItem} {key hint name value : Bytes}

/-- What is stored under the name of a field of a locality hash was loaded with it. -/
theorem Sensible.mem_localityField {all : List LoadItem} (h : Sensible all)
    (hs : ∀ item ∈ items, item ∈ all) (hm : .ofLocality key hint name value ∈ all) :
    .localityField key (appendEscapedString [] hint ++ name) ∈ loaded items ↔
      ∃ value', .ofLocality key hint name value' ∈ items := by
  rw [mem_loaded]
  constructor
  · rintro (he | he | ⟨item, hi, he⟩)
    · cases he
    · cases he
    · cases item with
      | ofValue key' value' => simp [LoadItem.records] at he
      | ofField type key' name' value' => simp [LoadItem.records] at he
      | ofLocality key' hint' name' value' =>
        simp only [LoadItem.records, List.map_cons, List.map_nil, List.mem_cons,
          StoreKey.localityField.injEq, reduceCtorEq, List.not_mem_nil, or_false] at he
        obtain ⟨rfl, he⟩ := he
        obtain ⟨hk, hh, -⟩ := h.whole _ hm
        obtain ⟨-, hh', -⟩ := h.whole _ (hs _ hi)
        have hl := ((hintDecodes_iff hk hh name).mp (h.decodes _ hm)).1
        have hl' := ((hintDecodes_iff hk hh' name').mp (h.decodes _ (hs _ hi))).1
        obtain ⟨rfl, rfl⟩ := hint_injective hh hh' hl hl' he
        exact ⟨value', hi⟩
  · rintro ⟨value', hi⟩
    exact .inr (.inr ⟨_, hi, List.mem_cons_self⟩)

theorem lookup_loaded {k : StoreKey} (hm : (k, value) ∈ items.flatMap LoadItem.records)
    (hv : ∀ e ∈ items.flatMap LoadItem.records, e.1 = k → e.2 = value) :
    (loaded items).lookup k = some value := by
  unfold loaded
  rw [putItems_eq]
  exact lookup_putAll hm hv

theorem Sensible.lookup_localityIndex (h : Sensible items)
    (hm : .ofLocality key hint name value ∈ items) :
    (loaded items).lookup (.localityIndex key name) = some hint := by
  apply lookup_loaded
  · exact List.mem_flatMap.mpr ⟨_, hm, List.mem_cons_of_mem _ List.mem_cons_self⟩
  · intro e he hk
    obtain ⟨item, hi, he⟩ := List.mem_flatMap.mp he
    cases item <;>
      simp only [LoadItem.records, List.mem_cons, List.not_mem_nil, or_false] at he
    · subst he
      cases hk
    · subst he
      cases hk
    · rcases he with rfl | rfl
      · cases hk
      · cases hk
        exact h.oneHint _ _ _ _ _ _ hi hm

theorem mem_localityIndex :
    .localityIndex key name ∈ loaded items ↔ ∃ hint value, .ofLocality key hint name value ∈ items := by
  rw [mem_loaded]
  constructor
  · rintro (he | he | ⟨item, hi, he⟩)
    · cases he
    · cases he
    · cases item with
      | ofValue key' value' => simp [LoadItem.records] at he
      | ofField type key' name' value' => simp [LoadItem.records] at he
      | ofLocality key' hint' name' value' =>
        simp only [LoadItem.records, List.map_cons, List.map_nil, List.mem_cons, reduceCtorEq,
          StoreKey.localityIndex.injEq, List.not_mem_nil, or_false, false_or] at he
        obtain ⟨rfl, rfl⟩ := he
        exact ⟨_, _, hi⟩
  · rintro ⟨hint, value, hi⟩
    exact .inr (.inr ⟨_, hi, List.mem_cons_of_mem _ List.mem_cons_self⟩)

theorem mem_field {type : KeyType} :
    .field type key name ∈ loaded items ↔ ∃ value, .ofField type key name value ∈ items := by
  rw [mem_loaded]
  constructor
  · rintro (he | he | ⟨item, hi, he⟩)
    · cases he
    · cases he
    · cases item with
      | ofValue key' value' => simp [LoadItem.records] at he
      | ofLocality key' hint' name' value' => simp [LoadItem.records] at he
      | ofField type key' name' value' =>
        simp only [LoadItem.records, List.map_cons, List.map_nil, List.mem_cons,
          StoreKey.field.injEq, List.not_mem_nil, or_false] at he
        obtain ⟨rfl, rfl, rfl⟩ := he
        exact ⟨_, hi⟩
  · rintro ⟨value, hi⟩
    exact .inr (.inr ⟨_, hi, List.mem_cons_self⟩)

/-- All elements of a set have the same value. -/
theorem Sensible.lookup_element (h : Sensible items) (hm : .field .kSet key name ∈ loaded items) :
    (loaded items).lookup (.field .kSet key name) = some (ascii "1") := by
  obtain ⟨value, hi⟩ := mem_field.mp hm
  have hone : ∀ value, .ofField .kSet key name value ∈ items → value = ascii "1" := by
    intro value hi
    obtain ⟨-, -, hc | ⟨-, hv⟩⟩ := h.whole _ hi
    · cases hc
    · exact hv
  apply lookup_loaded
  · exact List.mem_flatMap.mpr ⟨_, hi, by rw [hone value hi]; exact List.mem_cons_self⟩
  · intro e he hk
    obtain ⟨item, hi, he⟩ := List.mem_flatMap.mp he
    cases item <;>
      simp only [LoadItem.records, List.mem_cons, List.not_mem_nil, or_false] at he
    · subst he
      cases hk
    · subst he
      cases hk
      exact hone _ hi
    · rcases he with rfl | rfl
      · cases hk
      · cases hk

/-! ### Sizes fit -/

theorem count_insert_le {store : Store} {p : StoreKey → Bool} (k : StoreKey) (value : Bytes) :
    count (store.insert k value) p ≤ count store p + 1 := by
  by_cases hm : k ∈ store
  · rw [count_insert_of_mem value hm]
    omega
  · cases hp : p k with
    | true => rw [count_insert_of_notMem value hm hp]
    | false =>
      rw [count_insert_of_not (a := k) _ hp]
      omega

theorem count_loaded_le {p : StoreKey → Bool} (hi : ∀ key name, p (.localityIndex key name) = false)
    (ha : p .lastApplied = false) (hc : p .clock = false) :
    count (loaded items) p ≤ items.length := by
  induction items using List.reverseRecOn with
  | nil =>
    refine Nat.le_of_eq (count_eq_zero.mpr fun k hk => ?_)
    rcases mem_loaded.mp hk with rfl | rfl | ⟨item, hi, -⟩
    · exact ha
    · exact hc
    · cases hi
  | append_singleton items item ih =>
    rw [loaded_append, List.length_append]
    show count (putAll (loaded items) item.records) p ≤ items.length + 1
    cases item with
    | ofValue key value => exact Nat.le_trans (count_insert_le _ _) (Nat.succ_le_succ ih)
    | ofField type key name value =>
      exact Nat.le_trans (count_insert_le _ _) (Nat.succ_le_succ ih)
    | ofLocality key hint name value =>
      have hrec : putAll (loaded items) (LoadItem.ofLocality key hint name value).records =
          ((loaded items).insert (.localityField key (appendEscapedString [] hint ++ name))
            value).insert (.localityIndex key name) hint := rfl
      rw [hrec, count_insert_of_not (a := StoreKey.localityIndex key name) _ (hi key name)]
      exact Nat.le_trans (count_insert_le _ _) (Nat.succ_le_succ ih)

theorem sizeOfKey_loaded_le {type : KeyType} (hl : IsLoaded type) (ht : type ≠ .kString) :
    sizeOfKey (loaded items) key type ≤ items.length := by
  rcases hl with rfl | rfl | rfl | rfl
  · exact absurd rfl ht
  · exact Int.ofNat_le.mpr (count_loaded_le (fun _ _ => rfl) rfl rfl)
  · exact Int.ofNat_le.mpr (count_loaded_le (fun _ _ => rfl) rfl rfl)
  · exact Int.ofNat_le.mpr (count_loaded_le (fun _ _ => rfl) rfl rfl)

/-- What a value is found to be was loaded. -/
theorem mem_of_lookup_string (h : (loaded items).lookup (.string key) = some value) :
    .ofValue key value ∈ items := by
  unfold loaded at h
  rw [putItems_eq] at h
  rcases mem_of_lookup_putAll h with hm | hl
  · obtain ⟨item, hi, he⟩ := List.mem_flatMap.mp hm
    cases item <;>
      simp only [LoadItem.records, List.mem_cons, List.not_mem_nil, or_false, Prod.mk.injEq,
        StoreKey.string.injEq, reduceCtorEq, false_and] at he
    obtain ⟨rfl, rfl⟩ := he
    exact hi
  · cases hl

theorem Sensible.sizeOfKey_lt (h : Sensible items) (hroom : items.length < 2 ^ 63) {type : KeyType}
    (hl : IsLoaded type) (key : Bytes) : sizeOfKey (loaded items) key type < 2 ^ 63 := by
  by_cases ht : type = .kString
  · subst ht
    rw [sizeOfKey_string]
    rcases hv : (loaded items).lookup (.string key) with _ | value
    · rw [hv, Option.map_none, Option.getD_none]
      omega
    · obtain ⟨-, -, hlen⟩ := h.whole _ (mem_of_lookup_string hv)
      rw [hv, Option.map_some, Option.getD_some]
      omega
  · have hle : sizeOfKey (loaded items) key type ≤ items.length := sizeOfKey_loaded_le hl ht
    omega

end

/-! ## Commands in normal mode -/

section

variable {done : List LoadItem} {descriptors : Bytes → Option Bytes} {key : Bytes} {size : Int}
  {b : Bool} {s : StagingArea} {fault : Fault → Prop}

theorem WriteOperation.onKey_fieldExists {type : KeyType} (hb : type.bearsFields = true)
    (field : Bytes) :
    (WriteOperation.onKey key type size b).fieldExists field =
      keyExists (.field type key field) :=
  WriteOperation.fieldExists_eq rfl hb field

theorem WriteOperation.onKey_writeField {type : KeyType} (hb : type.bearsFields = true)
    (field value : Bytes) :
    (WriteOperation.onKey key type size b).writeField field value =
      put (.field type key field) value :=
  WriteOperation.writeField_eq rfl hb field value

theorem loaded_field (done : List LoadItem) (type : KeyType) (key name value : Bytes) :
    loaded (done ++ [.ofField type key name value]) =
      (loaded done).insert (.field type key name) value := by
  rw [loaded_append]
  rfl

theorem sizeOfKey_loaded_field {type : KeyType} (hb : type.bearsFields = true)
    (done : List LoadItem) (key name value : Bytes) :
    sizeOfKey (loaded (done ++ [.ofField type key name value])) key type =
      sizeOfKey (loaded done) key type +
        if .field type key name ∈ loaded done then 0 else 1 := by
  rw [loaded_field, sizeOfKey_insert_field hb]

/-- A new field counts, in 64 bits. -/
theorem sum64_field {type : KeyType} (hb : type.bearsFields = true) (hl : IsLoaded type)
    (hroom : done.length + 1 < 2 ^ 63) (name value : Bytes) :
    sum64 (sizeOfKey (loaded done) key type)
        (if !((loaded done).lookup (.field type key name)).isSome then 1 else 0) =
      sizeOfKey (loaded (done ++ [.ofField type key name value])) key type := by
  have ht : type ≠ .kString := by
    rintro rfl
    cases hb
  have h0 := sizeOfKey_nonneg hl (loaded done) key
  have h1 : sizeOfKey (loaded done) key type ≤ done.length := sizeOfKey_loaded_le hl ht
  rw [sizeOfKey_loaded_field hb]
  by_cases hm : .field type key name ∈ loaded done
  · rw [AList.lookup_isSome.mpr hm, if_pos hm, if_neg (show ¬ (!true) = true by decide)]
    exact signed_of_fits (by omega) (by omega)
  · rw [AList.lookup_eq_none.mpr hm, Option.isSome_none, if_neg hm,
      if_pos (show (!false) = true from rfl)]
    exact signed_of_fits (by omega) (by omega)

theorem Alike.insert_field (h : Alike (loaded done) descriptors s.store) (type : KeyType)
    (name value : Bytes) :
    Alike (loaded (done ++ [.ofField type key name value])) descriptors
      (s.putIn (.field type key name) value).store := by
  rw [loaded_field]
  exact h.insert rfl value

theorem yields_hmsetLoop_alike {args : List Bytes} (h : Alike (loaded done) descriptors s.store)
    (hroom : (done ++ hashItems key args).length < 2 ^ 63) :
    Yields (hmsetLoop (.onKey key .kHash size b) (sizeOfKey (loaded done) key .kHash) args) s
      (fun r s' => r = sizeOfKey (loaded (done ++ hashItems key args)) key .kHash ∧
        Alike (loaded (done ++ hashItems key args)) descriptors s'.store) fault := by
  induction args using hashItems.induct generalizing done s with
  | case1 field value rest ih =>
    have hi : done ++ hashItems key (field :: value :: rest) =
        (done ++ [.ofField .kHash key field value]) ++ hashItems key rest := by
      rw [List.append_assoc]
      rfl
    rw [hi] at hroom ⊢
    have hdone : done.length + 1 < 2 ^ 63 := by
      rw [List.length_append, List.length_append, List.length_singleton] at hroom
      omega
    unfold hmsetLoop
    rw [WriteOperation.onKey_fieldExists rfl, WriteOperation.onKey_writeField rfl, yields_bind,
      yields_keyExists, h.same _ (not_descriptor rfl)]
    dsimp only
    rw [yields_bind, yields_put, sum64_field rfl (.inr (.inl rfl)) hdone field value]
    exact ih (h.insert_field .kHash field value) hroom
  | case2 args hne =>
    have hi : hashItems key args = [] := by
      unfold hashItems
      split
      · exact (hne _ _ _ rfl).elim
      · rfl
    unfold hmsetLoop
    split
    · exact (hne _ _ _ rfl).elim
    · rw [hi, List.append_nil]
      exact ⟨rfl, h⟩

theorem yields_saddLoop_alike {elements : List Bytes}
    (h : Alike (loaded done) descriptors s.store) (hs : Sensible (done ++ setItems key elements)) :
    Yields (saddLoop (.onKey key .kSet size b) elements) s
      (fun r s' => sizeOfKey (loaded done) key .kSet + r =
          sizeOfKey (loaded (done ++ setItems key elements)) key .kSet ∧
        Alike (loaded (done ++ setItems key elements)) descriptors s'.store) fault := by
  induction elements generalizing done s with
  | nil =>
    rw [show setItems key [] = [] from rfl, List.append_nil]
    exact ⟨Int.add_zero _, h⟩
  | cons element rest ih =>
    have hi : done ++ setItems key (element :: rest) =
        (done ++ [.ofField .kSet key element (ascii "1")]) ++ setItems key rest := by
      rw [List.append_assoc]
      rfl
    rw [hi] at hs ⊢
    have hsize := sizeOfKey_loaded_field (show KeyType.bearsFields .kSet = true from rfl) done key
      element (ascii "1")
    unfold saddLoop
    rw [WriteOperation.onKey_fieldExists rfl, WriteOperation.onKey_writeField rfl, yields_bind,
      yields_keyExists, h.same _ (not_descriptor rfl)]
    by_cases hm : .field .kSet key element ∈ loaded done
    · -- an element that is there is not written again
      have hl := (hs.mono fun i hi => by simp [hi]).lookup_element hm
      have h' : Alike (loaded (done ++ [.ofField .kSet key element (ascii "1")])) descriptors
          s.store := by
        rw [loaded_field]
        exact h.insert_same hl
      rw [if_pos hm] at hsize
      rw [AList.lookup_isSome.mpr hm, if_neg (show ¬ (!true) = true by decide), yields_bind]
      refine (ih h' hs).mono fun r s' hr => ⟨?_, hr.2⟩
      rw [if_pos rfl]
      have := hr.1
      omega
    · rw [if_neg hm] at hsize
      rw [AList.lookup_eq_none.mpr hm, Option.isSome_none, if_pos (show (!false) = true from rfl),
        yields_bind, yields_put, yields_bind]
      refine (ih (h.insert_field .kSet element (ascii "1")) hs).mono fun r s' hr => ⟨?_, hr.2⟩
      rw [if_neg Bool.false_ne_true]
      have := hr.1
      omega

/-! ### Locality hashes -/

theorem loaded_locality (done : List LoadItem) (key hint name value : Bytes) :
    loaded (done ++ [.ofLocality key hint name value]) =
      ((loaded done).insert (.localityField key (appendEscapedString [] hint ++ name)) value).insert
        (.localityIndex key name) hint := by
  rw [loaded_append]
  rfl

theorem sizeOfKey_loaded_locality (done : List LoadItem) (key hint name value : Bytes) :
    sizeOfKey (loaded (done ++ [.ofLocality key hint name value])) key .kLocalityHash =
      sizeOfKey (loaded done) key .kLocalityHash +
        if .localityField key (appendEscapedString [] hint ++ name) ∈ loaded done then 0 else 1 := by
  have hsize : ∀ store, sizeOfKey store key .kLocalityHash = count store (isLocalityField key) :=
    fun _ => rfl
  rw [hsize, hsize, loaded_locality,
    count_insert_of_not (a := StoreKey.localityIndex key name) _ rfl]
  split
  · rename_i hm
    rw [count_insert_of_mem _ hm, Int.add_zero]
  · rename_i hm
    rw [count_insert_of_notMem _ hm (by simp [isLocalityField])]
    exact Int.natCast_succ _

theorem yields_lhsetInternal_alike {field hint value : Bytes}
    (h : Alike (loaded done) descriptors s.store)
    (hs : Sensible (done ++ [.ofLocality key hint field value])) :
    Yields (lhsetInternal (.onKey key .kLocalityHash size b) field hint value) s
      (fun r s' => sizeOfKey (loaded done) key .kLocalityHash + (if r then 1 else 0) =
          sizeOfKey (loaded (done ++ [.ofLocality key hint field value])) key .kLocalityHash ∧
        Alike (loaded (done ++ [.ofLocality key hint field value])) descriptors s'.store) fault := by
  have hlast : LoadItem.ofLocality key hint field value ∈
      done ++ [.ofLocality key hint field value] := by simp
  have hsub : ∀ item ∈ done, item ∈ done ++ [.ofLocality key hint field value] :=
    fun item hi => List.mem_append_left _ hi
  have hdone : Sensible done := hs.mono hsub
  obtain ⟨hk, hh, hf⟩ := hs.whole _ hlast
  have hfield := hs.mem_localityField hsub hlast
  have hput : ∀ s : StagingArea, Alike (loaded done) descriptors s.store →
      Alike ((loaded done).insert (.localityField key (appendEscapedString [] hint ++ field)) value)
        descriptors (s.putIn (.localityField key (appendEscapedString [] hint ++ field)) value).store :=
    fun s h => h.insert rfl value
  rw [sizeOfKey_loaded_locality, loaded_locality]
  unfold lhsetInternal WriteOperation.localityFieldExists WriteOperation.writeLocalityField
    WriteOperation.getLocalityIndex WriteOperation.writeLocalityIndex
  rw [WriteOperation.assertLocality_valid rfl rfl]
  dsimp only [WriteOperation.onKey]
  rw [Bulkload.localityFieldKey_eq hk hh, Bulkload.localityIndexKey_eq hk hf, throwing_ok,
    throwing_ok]
  simp only [pure_bind]
  rw [yields_bind, yields_keyExists, h.same _ (not_descriptor rfl)]
  by_cases hm : .localityField key (appendEscapedString [] hint ++ field) ∈ loaded done
  · -- the field is there, and its index has the same hint
    obtain ⟨value', hi⟩ := hfield.mp hm
    have hindex := hdone.lookup_localityIndex hi
    rw [AList.lookup_isSome.mpr hm, if_pos rfl, if_pos hm, yields_bind, yields_put, yields_pure]
    refine ⟨by rw [if_neg Bool.false_ne_true], (hput s h).insert_same ?_⟩
    rw [AList.lookup_insert_ne (by simp)]
    exact hindex
  · have hnone : (loaded done).lookup (.localityIndex key field) = none := by
      refine AList.lookup_eq_none.mpr fun hc => hm (hfield.mpr ?_)
      obtain ⟨hint', value', hi⟩ := mem_localityIndex.mp hc
      obtain rfl := hs.oneHint _ _ _ _ _ _ hlast (hsub _ hi)
      exact ⟨value', hi⟩
    rw [AList.lookup_eq_none.mpr hm, Option.isSome_none, if_neg Bool.false_ne_true, if_neg hm,
      yields_bind, yields_lookup, h.same _ (not_descriptor rfl), hnone]
    dsimp only
    rw [yields_bind, yields_put, yields_bind, yields_put, yields_pure]
    exact ⟨by rw [if_pos rfl], (hput s h).insert rfl hint⟩

theorem yields_lhmsetLoop_alike {args : List Bytes} (h : Alike (loaded done) descriptors s.store)
    (hs : Sensible (done ++ localityItems key args)) :
    Yields (lhmsetLoop (.onKey key .kLocalityHash size b) args) s
      (fun r s' => sizeOfKey (loaded done) key .kLocalityHash + r =
          sizeOfKey (loaded (done ++ localityItems key args)) key .kLocalityHash ∧
        Alike (loaded (done ++ localityItems key args)) descriptors s'.store) fault := by
  induction args using localityItems.induct generalizing done s with
  | case1 field hint value rest ih =>
    have hi : done ++ localityItems key (field :: hint :: value :: rest) =
        (done ++ [.ofLocality key hint field value]) ++ localityItems key rest := by
      rw [List.append_assoc]
      rfl
    rw [hi] at hs ⊢
    unfold lhmsetLoop
    rw [yields_bind]
    refine (yields_lhsetInternal_alike h (hs.mono fun i hi => List.mem_append_left _ hi)).mono
      fun created s1 h1 => ?_
    rw [yields_bind]
    refine (ih h1.2 hs).mono fun r s2 h2 => ⟨?_, h2.2⟩
    have e1 := h1.1
    have e2 := h2.1
    omega
  | case2 args hne =>
    have hi : localityItems key args = [] := by
      unfold localityItems
      split
      · exact (hne _ _ _ _ rfl).elim
      · rfl
    unfold lhmsetLoop
    split
    · exact (hne _ _ _ _ rfl).elim
    · rw [hi, List.append_nil]
      exact ⟨Int.add_zero _, h⟩

end

/-! ## Requests in normal mode -/

/-- What a request is: it has the wrong form and names nothing, or it runs its command. -/
inductive Load.Runs (doubles : Doubles) (load : Load) : Prop
  | wrong (reply : Bytes) (hi : load.items = [])
    (hr : dispatchCommand doubles load.request = pure reply)
  | set (key value : Bytes) (hi : load.items = [.ofValue key value])
    (hr : dispatchCommand doubles load.request = do
      return Formatter.fromStatus (← StateMachine.set key value))
  | hset (key field value : Bytes) (hi : load.items = [.ofField .kHash key field value])
    (hr : dispatchCommand doubles load.request = do
      return replyWith (← StateMachine.hset key field value) flag)
  | hmset (key : Bytes) (args : List Bytes) (hlen : 2 ≤ args.length) (heven : args.length % 2 = 0)
    (hi : load.items = hashItems key args)
    (hr : dispatchCommand doubles load.request = do
      return Formatter.fromStatus (← StateMachine.hmset key args))
  | sadd (key element : Bytes) (elements : List Bytes)
    (hi : load.items = setItems key (element :: elements))
    (hr : dispatchCommand doubles load.request = do
      return replyWith (← StateMachine.sadd key (element :: elements)) Formatter.integer)
  | lhset (key field hint value : Bytes) (hi : load.items = [.ofLocality key hint field value])
    (hr : dispatchCommand doubles load.request = do
      return replyWith (← StateMachine.lhset key field hint value) flag)
  | lhmset (key : Bytes) (args : List Bytes) (hlen : 3 ≤ args.length)
    (hthree : args.length % 3 = 0) (hi : load.items = localityItems key args)
    (hr : dispatchCommand doubles load.request = do
      return Formatter.fromStatus (← StateMachine.lhmset key args))

theorem Load.runs (doubles : Doubles) (load : Load) : load.Runs doubles := by
  have hn := load.named
  generalize hc : load.command = command at hn
  rcases command with _ | _ | _ | _ | _ | _
  · rcases ht : load.request.tail with _ | ⟨key, _ | ⟨value, _ | ⟨x, rest⟩⟩⟩
    rotate_left 2
    · refine .set key value ?_ ?_
      · unfold Load.items
        rw [hc, ht]
      · unfold dispatchCommand
        rw [hn, ht]
        rfl
    all_goals
      refine .wrong (Formatter.errArgs (load.request.headD [])) ?_ ?_
      · unfold Load.items
        rw [hc, ht]
      · unfold dispatchCommand
        rw [hn, ht]
        rfl
  · rcases ht : load.request.tail with _ | ⟨key, _ | ⟨field, _ | ⟨value, _ | ⟨x, rest⟩⟩⟩⟩
    rotate_left 3
    · refine .hset key field value ?_ ?_
      · unfold Load.items
        rw [hc, ht]
      · unfold dispatchCommand
        rw [hn, ht]
        rfl
    all_goals
      refine .wrong (Formatter.errArgs (load.request.headD [])) ?_ ?_
      · unfold Load.items
        rw [hc, ht]
      · unfold dispatchCommand
        rw [hn, ht]
        rfl
  · rcases ht : load.request.tail with _ | ⟨key, args⟩
    · refine .wrong (Formatter.errArgs (load.request.headD [])) ?_ ?_
      · unfold Load.items
        rw [hc, ht]
      · unfold dispatchCommand
        rw [hn, ht]
        rfl
    · have hi := Load.items_of_hmset hc ht
      by_cases hw : args.length < 2 ∨ args.length % 2 ≠ 0
      · rw [if_pos hw] at hi
        refine .wrong (Formatter.errArgs (load.request.headD [])) hi ?_
        unfold dispatchCommand
        rw [hn, ht]
        dsimp only [LoadCommand.toCommand]
        rw [if_pos hw]
      · rw [if_neg hw] at hi
        refine .hmset key args (by omega) (by omega) hi ?_
        unfold dispatchCommand
        rw [hn, ht]
        dsimp only [LoadCommand.toCommand]
        rw [if_neg hw]
  · rcases ht : load.request.tail with _ | ⟨key, _ | ⟨element, elements⟩⟩
    rotate_left 2
    · refine .sadd key element elements ?_ ?_
      · unfold Load.items
        rw [hc, ht]
      · unfold dispatchCommand
        rw [hn, ht]
        rfl
    all_goals
      refine .wrong (Formatter.errArgs (load.request.headD [])) ?_ ?_
      · unfold Load.items
        rw [hc, ht]
      · unfold dispatchCommand
        rw [hn, ht]
        rfl
  · rcases ht : load.request.tail with
      _ | ⟨key, _ | ⟨field, _ | ⟨hint, _ | ⟨value, _ | ⟨x, rest⟩⟩⟩⟩⟩
    rotate_left 4
    · refine .lhset key field hint value ?_ ?_
      · unfold Load.items
        rw [hc, ht]
      · unfold dispatchCommand
        rw [hn, ht]
        rfl
    all_goals
      refine .wrong (Formatter.errArgs (load.request.headD [])) ?_ ?_
      · unfold Load.items
        rw [hc, ht]
      · unfold dispatchCommand
        rw [hn, ht]
        rfl
  · rcases ht : load.request.tail with _ | ⟨key, args⟩
    · refine .wrong (Formatter.errArgs (load.request.headD [])) ?_ ?_
      · unfold Load.items
        rw [hc, ht]
      · unfold dispatchCommand
        rw [hn, ht]
        rfl
    · have hi := Load.items_of_lhmset hc ht
      by_cases hw : args.length < 3 ∨ args.length % 3 ≠ 0
      · rw [if_pos hw] at hi
        refine .wrong (Formatter.errArgs (load.request.headD [])) hi ?_
        unfold dispatchCommand
        rw [hn, ht]
        dsimp only [LoadCommand.toCommand]
        rw [if_pos hw]
      · rw [if_neg hw] at hi
        refine .lhmset key args (by omega) (by omega) hi ?_
        unfold dispatchCommand
        rw [hn, ht]
        dsimp only [LoadCommand.toCommand]
        rw [if_neg hw]

theorem Sensible.sizeOfKey_pos {items : List LoadItem} (h : Sensible items) {item : LoadItem}
    (hi : item ∈ items) : 0 < sizeOfKey (loaded items) item.key item.type := by
  cases item with
  | ofValue key value =>
    have hm : .string key ∈ loaded items := mem_loaded.mpr (.inr (.inr ⟨_, hi, List.mem_cons_self⟩))
    obtain ⟨value', hv⟩ := Option.isSome_iff_exists.mp (AList.lookup_isSome.mpr hm)
    obtain ⟨-, hne, -⟩ := h.whole _ (mem_of_lookup_string hv)
    show 0 < sizeOfKey (loaded items) key .kString
    rw [sizeOfKey_string, hv]
    exact Int.natCast_pos.mpr (List.length_pos_iff.mpr hne)
  | ofField type key name value =>
    have hm : .field type key name ∈ loaded items := mem_field.mpr ⟨value, hi⟩
    have hb : type.bearsFields = true := by
      obtain ⟨-, -, rfl | ⟨rfl, -⟩⟩ := h.whole _ hi
      · rfl
      · rfl
    show 0 < sizeOfKey (loaded items) key type
    rw [sizeOfKey_field hb]
    exact Int.natCast_pos.mpr (count_pos hm (isField_self _ _ _))
  | ofLocality key hint name value =>
    have hm : .localityField key (appendEscapedString [] hint ++ name) ∈ loaded items :=
      mem_loaded.mpr (.inr (.inr ⟨_, hi, List.mem_cons_self⟩))
    exact Int.natCast_pos.mpr (count_pos hm (by simp [isLocalityField, LoadItem.key]))

section

variable {done items : List LoadItem} {typeOf : Bytes → KeyType} {key : Bytes} {type : KeyType}
  {s : StagingArea} {fault : Fault → Prop}

/-- A command that has stored items of one key, and at least one of them, ends with the
descriptor that they ask for. -/
theorem yields_end_load (hs : Sensible (done ++ items)) {item : LoadItem} (hi : item ∈ items)
    (hkey : ∀ i ∈ items, i.key = key) (htype : item.type = type) (ht : typeOf key = type)
    (h : Alike (loaded (done ++ items)) (describe typeOf (loaded done)) s.store) (b : Bool) :
    Yields ((WriteOperation.onKey key type (sizeOfKey (loaded done) key type) b).finalize
        (sizeOfKey (loaded (done ++ items)) key type) false) s
      (fun _ s' => Alike (loaded (done ++ items)) (describe typeOf (loaded (done ++ items)))
        s'.store) fault := by
  have hmem : item ∈ done ++ items := List.mem_append_right _ hi
  have hpos := hs.sizeOfKey_pos hmem
  have hl := (hs.whole _ hmem).isLoaded
  rw [hkey item hi, htype] at hpos
  rw [htype] at hl
  refine yields_finalize_alike h ht hl (fun key' hne => ?_) hpos b
  rw [loaded_append]
  refine putItems_sameData _ fun i hi he => hne ?_
  rw [← he, hkey i hi]

/-- The new size, in 64 bits. -/
theorem sum64_loaded (hs : Sensible (done ++ items)) (hroom : (done ++ items).length < 2 ^ 63)
    (hl : IsLoaded type) {r : Int}
    (hr : sizeOfKey (loaded done) key type + r = sizeOfKey (loaded (done ++ items)) key type) :
    sum64 (sizeOfKey (loaded done) key type) r = sizeOfKey (loaded (done ++ items)) key type := by
  have h0 := sizeOfKey_nonneg hl (loaded (done ++ items)) key
  have h1 := hs.sizeOfKey_lt hroom hl key
  unfold sum64
  rw [hr]
  exact signed_of_fits (by omega) h1

/-- The operation on a key that items were loaded for, or none yet. -/
theorem yields_start_load {α : Type} {otherwise : α} {body : WriteOperation → StagingM α}
    {post : α → StagingArea → Prop} (hs : Sensible done) (hroom : done.length < 2 ^ 63)
    (ht : typeOf key = type) (hl : IsLoaded type)
    (h : Alike (loaded done) (describe typeOf (loaded done)) s.store)
    (hbody : ∀ b, Yields (body (.onKey key type (sizeOfKey (loaded done) key type) b)) s post
      fault) :
    Yields (withOperation key type otherwise body) s post fault :=
  yields_withOperation_alike h ht hl (hs.sizeOfKey_lt hroom hl key) hbody

theorem key_of_mem_hashItems {args : List Bytes} {item : LoadItem} (h : item ∈ hashItems key args) :
    item.key = key ∧ item.type = .kHash := by
  induction args using hashItems.induct with
  | case1 field value rest ih =>
    rcases List.mem_cons.mp h with rfl | h
    · exact ⟨rfl, rfl⟩
    · exact ih h
  | case2 args hne =>
    unfold hashItems at h
    split at h
    · exact (hne _ _ _ rfl).elim
    · cases h

theorem key_of_mem_localityItems {args : List Bytes} {item : LoadItem}
    (h : item ∈ localityItems key args) : item.key = key ∧ item.type = .kLocalityHash := by
  induction args using localityItems.induct with
  | case1 field hint value rest ih =>
    rcases List.mem_cons.mp h with rfl | h
    · exact ⟨rfl, rfl⟩
    · exact ih h
  | case2 args hne =>
    unfold localityItems at h
    split at h
    · exact (hne _ _ _ _ rfl).elim
    · cases h

theorem key_of_mem_setItems {elements : List Bytes} {item : LoadItem}
    (h : item ∈ setItems key elements) : item.key = key ∧ item.type = .kSet := by
  obtain ⟨element, -, rfl⟩ := List.mem_map.mp h
  exact ⟨rfl, rfl⟩

end

/-- In normal mode, what a request names is stored, and the descriptors follow. -/
theorem Load.yields_dispatchCommand (doubles : Doubles) {load : Load} {done : List LoadItem}
    {typeOf : Bytes → KeyType} {s : StagingArea} {fault : Fault → Prop}
    (hs : Sensible (done ++ load.items)) (hroom : (done ++ load.items).length < 2 ^ 63)
    (ht : ∀ item ∈ load.items, typeOf item.key = item.type)
    (h : Alike (loaded done) (describe typeOf (loaded done)) s.store) :
    Yields (dispatchCommand doubles load.request) s
      (fun _ s' => Alike (loaded (done ++ load.items))
        (describe typeOf (loaded (done ++ load.items))) s'.store) fault := by
  have hdone : Sensible done := hs.mono fun item hi => List.mem_append_left _ hi
  have hlen : done.length < 2 ^ 63 := by
    rw [List.length_append] at hroom
    omega
  rcases load.runs doubles with ⟨reply, hi, hr⟩ | ⟨key, value, hi, hr⟩ | ⟨key, field, value, hi, hr⟩
    | ⟨key, args, hlong, heven, hi, hr⟩ | ⟨key, element, elements, hi, hr⟩
    | ⟨key, field, hint, value, hi, hr⟩ | ⟨key, args, hlong, hthree, hi, hr⟩
  · rw [hr, hi, List.append_nil]
    exact h
  · rw [hi] at hs hroom ht ⊢
    rw [hr, yields_bind]
    have htype : typeOf key = .kString := ht _ List.mem_cons_self
    unfold StateMachine.set
    refine yields_start_load hdone hlen htype (.inl rfl) h fun b => ?_
    have hw : (WriteOperation.onKey key .kString (sizeOfKey (loaded done) key .kString) b).write
        value = put (.string key) value := rfl
    have hput : loaded (done ++ [.ofValue key value]) = (loaded done).insert (.string key) value := by
      rw [loaded_append]
      rfl
    have hsize : sizeOfKey (loaded (done ++ [.ofValue key value])) key .kString = value.length := by
      rw [hput, sizeOfKey_string, AList.lookup_insert]
      rfl
    rw [hw, yields_bind, yields_put, yields_bind, ← hsize]
    refine (yields_end_load hs List.mem_cons_self (fun i hi => ?_) rfl htype ?_ b).mono
      fun _ s' hs' => hs'
    · rw [List.mem_singleton.mp hi]
      rfl
    · rw [hput]
      exact h.insert rfl value
  · rw [hi] at hs hroom ht ⊢
    rw [hr, yields_bind]
    have htype : typeOf key = .kHash := ht _ List.mem_cons_self
    have hone : done.length + 1 < 2 ^ 63 := by
      rw [List.length_append, List.length_singleton] at hroom
      exact hroom
    unfold StateMachine.hset
    refine yields_start_load hdone hlen htype (.inr (.inl rfl)) h fun b => ?_
    rw [WriteOperation.onKey_fieldExists rfl, WriteOperation.onKey_writeField rfl, yields_bind,
      yields_keyExists, h.same _ (not_descriptor rfl)]
    dsimp only [WriteOperation.keySize, WriteOperation.onKey]
    rw [yields_bind, yields_put, yields_bind, sum64_field rfl (.inr (.inl rfl)) hone field value]
    refine (yields_end_load hs List.mem_cons_self (fun i hi => ?_) rfl htype
      (h.insert_field .kHash field value) b).mono fun _ s' hs' => hs'
    rw [List.mem_singleton.mp hi]
    rfl
  · rw [hi] at hs hroom ht ⊢
    rw [hr, yields_bind]
    obtain ⟨item, hitem⟩ := List.exists_mem_of_length_pos (length_hashItems key hlong)
    obtain ⟨hk, htype⟩ := key_of_mem_hashItems hitem
    have htk := ht item hitem
    rw [hk, htype] at htk
    unfold StateMachine.hmset
    rw [if_neg (by omega)]
    dsimp only
    refine yields_start_load hdone hlen htk (.inr (.inl rfl)) h fun b => ?_
    rw [yields_bind]
    refine (yields_hmsetLoop_alike h hroom).mono fun r s1 h1 => ?_
    obtain ⟨rfl, h1⟩ := h1
    rw [yields_bind]
    exact (yields_end_load hs hitem (fun i hi => (key_of_mem_hashItems hi).1) htype htk h1 b).mono
      fun _ s' hs' => hs'
  · rw [hi] at hs hroom ht ⊢
    rw [hr, yields_bind]
    have hitem : .ofField .kSet key element (ascii "1") ∈ setItems key (element :: elements) :=
      List.mem_cons_self
    have htype : typeOf key = .kSet := ht _ hitem
    unfold StateMachine.sadd
    refine yields_start_load hdone hlen htype (.inr (.inr (.inl rfl))) h fun b => ?_
    rw [yields_bind]
    refine (yields_saddLoop_alike h hs).mono fun r s1 h1 => ?_
    dsimp only [WriteOperation.keySize, WriteOperation.onKey]
    rw [yields_bind, sum64_loaded hs hroom (.inr (.inr (.inl rfl))) h1.1]
    exact (yields_end_load hs hitem (fun i hi => (key_of_mem_setItems hi).1) rfl htype h1.2 b).mono
      fun _ s' hs' => hs'
  · rw [hi] at hs hroom ht ⊢
    rw [hr, yields_bind]
    have htype : typeOf key = .kLocalityHash := ht _ List.mem_cons_self
    unfold StateMachine.lhset
    refine yields_start_load hdone hlen htype (.inr (.inr (.inr rfl))) h fun b => ?_
    rw [yields_bind]
    refine (yields_lhsetInternal_alike h hs).mono fun r s1 h1 => ?_
    dsimp only [WriteOperation.keySize, WriteOperation.onKey]
    rw [yields_bind, sum64_loaded hs hroom (.inr (.inr (.inr rfl))) h1.1]
    refine (yields_end_load hs List.mem_cons_self (fun i hi => ?_) rfl htype h1.2 b).mono
      fun _ s' hs' => hs'
    rw [List.mem_singleton.mp hi]
    rfl
  · rw [hi] at hs hroom ht ⊢
    rw [hr, yields_bind]
    obtain ⟨item, hitem⟩ := List.exists_mem_of_length_pos (length_localityItems key hlong)
    obtain ⟨hk, htype⟩ := key_of_mem_localityItems hitem
    have htk := ht item hitem
    rw [hk, htype] at htk
    unfold StateMachine.lhmset
    rw [if_neg (by omega)]
    dsimp only
    refine yields_start_load hdone hlen htk (.inr (.inr (.inr rfl))) h fun b => ?_
    rw [yields_bind]
    refine (yields_lhmsetLoop_alike h hs).mono fun r s1 h1 => ?_
    dsimp only [WriteOperation.keySize, WriteOperation.onKey]
    rw [yields_bind, sum64_loaded hs hroom (.inr (.inr (.inr rfl))) h1.1]
    exact (yields_end_load hs hitem (fun i hi => (key_of_mem_localityItems hi).1) htype htk h1.2
      b).mono fun _ s' hs' => hs'

/-! ## The whole run in normal mode -/

theorem LoadCommand.write (command : LoadCommand) :
    command.toCommand ≠ .INVALID ∧ command.toCommand ≠ .TX_READWRITE ∧
      ∀ row ∈ redisCmdMap, row.2.1 = command.toCommand → row.2.2 = .WRITE := by
  have hall : ∀ row ∈ redisCmdMap, row.2.2 ≠ .WRITE → row.2.1 ≠ .SET ∧ row.2.1 ≠ .HSET ∧
      row.2.1 ≠ .HMSET ∧ row.2.1 ≠ .SADD ∧ row.2.1 ≠ .LHSET ∧ row.2.1 ≠ .LHMSET := by
    decide +kernel
  refine ⟨?_, ?_, fun row hrow hc => ?_⟩
  · cases command <;> decide
  · cases command <;> decide
  · by_contra ht
    obtain ⟨h1, h2, h3, h4, h5, h6⟩ := hall row hrow ht
    cases command
    · exact h1 hc
    · exact h2 hc
    · exact h3 hc
    · exact h4 hc
    · exact h5 hc
    · exact h6 hc

section

variable (doubles : Doubles) (dispatchRead : StagingArea → RedisRequest → Except Fault Bytes)

theorem dispatch_load {load : Load} {done : List LoadItem} {typeOf : Bytes → KeyType}
    {m : Machine} (hm : m.lastApplied = 0)
    (hs : Sensible (done ++ load.items)) (hroom : (done ++ load.items).length < 2 ^ 63)
    (ht : ∀ item ∈ load.items, typeOf item.key = item.type)
    (h : Alike (loaded done) (describe typeOf (loaded done)) m.store) :
    ∃ reply m', dispatch doubles dispatchRead m load.request 0 = .ok (reply, m') ∧
      m'.lastApplied = 0 ∧
      Alike (loaded (done ++ load.items)) (describe typeOf (loaded (done ++ load.items)))
        m'.store := by
  obtain ⟨hi, htx, hrow⟩ := load.command.write
  have hw : getCommandType load.request = .WRITE := getCommandType_of_table load.named hi hrow
  have hc : getCommand load.request ≠ .TX_READWRITE := by
    rw [load.named]
    exact htx
  obtain ⟨reply, s', hrun, halike⟩ :=
    (load.yields_dispatchCommand doubles (s := stage m) hs hroom ht h).exists_ok
  rw [dispatch_of_write doubles dispatchRead hw, dispatchOne_of_write doubles dispatchRead hw hc]
  have hcommit : commitTransaction m s' 0 =
      .ok { store := s'.store, expirationCache := s'.expirationCache, lastApplied := 0 } := by
    unfold commitTransaction
    rw [hm, if_neg (by omega), if_neg (by omega)]
  refine ⟨reply, { store := s'.store, expirationCache := s'.expirationCache, lastApplied := 0 },
    ?_, rfl, halike⟩
  unfold commitAfter
  rw [show (dispatchCommand doubles load.request).run (stage m) =
    dispatchCommand doubles load.request (stage m) from rfl, hrun]
  show (do return (reply, ← commitTransaction m s' 0)) = _
  rw [hcommit]
  rfl

/-- After any requests, the data is what they name, and the descriptors are what it asks
for. -/
theorem runAll_alike {loads : List Load} {done : List LoadItem} {typeOf : Bytes → KeyType}
    {m : Machine} (hm : m.lastApplied = 0) (hs : Sensible (done ++ itemsOf loads))
    (hroom : (done ++ itemsOf loads).length < 2 ^ 63)
    (ht : ∀ item ∈ itemsOf loads, typeOf item.key = item.type)
    (h : Alike (loaded done) (describe typeOf (loaded done)) m.store) :
    ∃ m', runAll doubles dispatchRead m loads = .ok m' ∧
      Alike (loaded (done ++ itemsOf loads)) (describe typeOf (loaded (done ++ itemsOf loads)))
        m'.store := by
  induction loads generalizing done m with
  | nil =>
    refine ⟨m, rfl, ?_⟩
    rw [show itemsOf [] = [] from rfl, List.append_nil]
    exact h
  | cons load loads ih =>
    have hi : done ++ itemsOf (load :: loads) = (done ++ load.items) ++ itemsOf loads := by
      rw [List.append_assoc]
      rfl
    rw [hi] at hs hroom ⊢
    have hlen : (done ++ load.items).length < 2 ^ 63 := by
      rw [List.length_append] at hroom
      omega
    obtain ⟨reply, m1, hd, hm1, h1⟩ := dispatch_load doubles dispatchRead hm
      (hs.mono fun item hi => List.mem_append_left _ hi) hlen
      (fun item hi => ht item (List.mem_append_left _ hi)) h
    obtain ⟨m2, hrun, h2⟩ := ih hm1 hs hroom
      (fun item hi => ht item (List.mem_append_right _ hi)) h1
    refine ⟨m2, ?_, h2⟩
    unfold runAll
    rw [hd]
    exact hrun

end

/-! ## Loads are sensible -/

theorem hashItems_whole {key : Bytes} {args : List Bytes} (hk : key ≠ [])
    (hargs : ∀ part ∈ args, part ≠ []) : ∀ item ∈ hashItems key args, item.Whole := by
  induction args using hashItems.induct with
  | case1 field value rest ih =>
    intro item hi
    rcases List.mem_cons.mp hi with rfl | hi
    · exact ⟨hk, hargs field (by simp), .inl rfl⟩
    · exact ih (fun part hp => hargs part (by simp [hp])) item hi
  | case2 args hne =>
    intro item hi
    unfold hashItems at hi
    split at hi
    · exact (hne _ _ _ rfl).elim
    · cases hi

theorem localityItems_whole {key : Bytes} {args : List Bytes} (hk : key ≠ [])
    (hargs : ∀ part ∈ args, part ≠ []) : ∀ item ∈ localityItems key args, item.Whole := by
  induction args using localityItems.induct with
  | case1 field hint value rest ih =>
    intro item hi
    rcases List.mem_cons.mp hi with rfl | hi
    · exact ⟨hk, hargs hint (by simp), hargs field (by simp)⟩
    · exact ih (fun part hp => hargs part (by simp [hp])) item hi
  | case2 args hne =>
    intro item hi
    unfold localityItems at hi
    split at hi
    · exact (hne _ _ _ _ rfl).elim
    · cases hi

theorem setItems_whole {key : Bytes} {elements : List Bytes} (hk : key ≠ [])
    (helements : ∀ part ∈ elements, part ≠ []) : ∀ item ∈ setItems key elements, item.Whole := by
  intro item hi
  obtain ⟨element, he, rfl⟩ := List.mem_map.mp hi
  exact ⟨hk, helements element he, .inr ⟨rfl, rfl⟩⟩

theorem Load.items_whole {load : Load}
    (hp : ∀ part ∈ load.request, part ≠ [] ∧ part.length < 2 ^ 63) :
    ∀ item ∈ load.items, item.Whole := by
  have hparts : ∀ part ∈ load.request.tail, part ≠ [] ∧ part.length < 2 ^ 63 :=
    fun part h => hp part (List.mem_of_mem_tail h)
  intro item hi
  unfold Load.items at hi
  split at hi
  · rename_i key value hc ht
    rw [ht] at hparts
    rw [List.mem_singleton.mp hi]
    obtain ⟨hv, hlen⟩ := hparts value (by simp)
    exact ⟨(hparts key (by simp)).1, hv, hlen⟩
  · cases hi
  · rename_i key field value hc ht
    rw [ht] at hparts
    rw [List.mem_singleton.mp hi]
    exact ⟨(hparts key (by simp)).1, (hparts field (by simp)).1, .inl rfl⟩
  · cases hi
  · rename_i key args hc ht
    rw [ht] at hparts
    split at hi
    · cases hi
    · exact hashItems_whole (hparts key (by simp)).1
        (fun part h => (hparts part (by simp [h])).1) item hi
  · cases hi
  · rename_i key element elements hc ht
    rw [ht] at hparts
    exact setItems_whole (hparts key (by simp)).1
      (fun part h => (hparts part (List.mem_cons_of_mem _ h)).1) item hi
  · cases hi
  · rename_i key field hint value hc ht
    rw [ht] at hparts
    rw [List.mem_singleton.mp hi]
    exact ⟨(hparts key (by simp)).1, (hparts hint (by simp)).1, (hparts field (by simp)).1⟩
  · cases hi
  · rename_i key args hc ht
    rw [ht] at hparts
    split at hi
    · cases hi
    · exact localityItems_whole (hparts key (by simp)).1
        (fun part h => (hparts part (by simp [h])).1) item hi
  · cases hi

theorem Loadable.sensible {loads : List Load} (h : Loadable loads) : Sensible (itemsOf loads) where
  whole item hi := by
    obtain ⟨load, hl, hi⟩ := List.mem_flatMap.mp hi
    exact load.items_whole (h.parts load hl) item hi
  oneType := h.oneType
  oneHint := h.oneHint
  decodes := h.decodes

/-- The type that a key is loaded with. -/
def typeIn (items : List LoadItem) (key : Bytes) : KeyType :=
  ((items.find? fun item => item.key = key).map LoadItem.type).getD .kString

theorem Sensible.typeIn_eq {items : List LoadItem} (h : Sensible items) {item : LoadItem}
    (hi : item ∈ items) : typeIn items item.key = item.type := by
  unfold typeIn
  rcases hf : items.find? (fun i => i.key = item.key) with _ | found
  · exact absurd (decide_eq_true rfl) (List.find?_eq_none.mp hf item hi)
  · rw [hf]
    have hk : found.key = item.key := by
      have := List.find?_some hf
      exact of_decide_eq_true this
    exact h.oneType found (List.mem_of_find?_eq_some hf) item hi hk

/-- Normal mode, from a new state machine. -/
theorem Loadable.runAll_eq (doubles : Doubles)
    (dispatchRead : StagingArea → RedisRequest → Except Fault Bytes) {loads : List Load}
    (h : Loadable loads) :
    ∃ m, runAll doubles dispatchRead freshMachine loads = .ok m ∧
      Alike (loaded (itemsOf loads))
        (describe (typeIn (itemsOf loads)) (loaded (itemsOf loads))) m.store := by
  have hfresh : Alike (loaded []) (describe (typeIn (itemsOf loads)) (loaded []))
      freshMachine.store := by
    refine ⟨fun _ _ => rfl, fun key => ?_⟩
    have hsize : sizeOfKey (loaded []) key (typeIn (itemsOf loads) key) = 0 := by
      cases typeIn (itemsOf loads) key <;> rfl
    unfold describe describedAs
    rw [hsize, if_pos rfl]
    rfl
  exact runAll_alike doubles dispatchRead rfl (show Sensible ([] ++ itemsOf loads) from h.sensible)
    h.room
    (fun item hi => h.sensible.typeIn_eq hi) hfresh

end quarkdb
