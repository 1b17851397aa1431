-- What loads name, and what both modes make of it: in bulkload mode all of it is put, and
-- nothing else; in normal mode the descriptors follow what is stored.
import QuarkDB.Bulkload

namespace quarkdb

open Endian StateMachine StagingArea Tally Outcome RedisDispatcher

/-! ## What a load names -/

/-- A value, a field, or a field of a locality hash. -/
inductive LoadItem
  | ofValue (key value : Bytes)
  | ofField (type : KeyType) (key name value : Bytes)
  | ofLocality (key hint name value : Bytes)
  deriving Repr, DecidableEq

namespace LoadItem

def key : LoadItem → Bytes
  | .ofValue key _ | .ofField _ key _ _ | .ofLocality key _ _ _ => key

def type : LoadItem → KeyType
  | .ofValue _ _ => .kString
  | .ofField type _ _ _ => type
  | .ofLocality _ _ _ _ => .kLocalityHash

/-- What is put for it. -/
def records : LoadItem → List (StoreKey × Bytes)
  | .ofValue key value => [(.string key, value)]
  | .ofField type key name value => [(.field type key name, value)]
  | .ofLocality key hint name value =>
    [(.localityField key (appendEscapedString [] hint ++ name), value),
      (.localityIndex key name, hint)]

/-- It decodes back from its encoding. -/
def Decodes : LoadItem → Prop
  | .ofValue _ _ => True
  | .ofField type key name _ => FieldKeyDecodes type key name
  | .ofLocality key hint name _ => HintDecodes key hint name

end LoadItem

def hashItems (key : Bytes) : List Bytes → List LoadItem
  | field :: value :: rest => .ofField .kHash key field value :: hashItems key rest
  | _ => []

def setItems (key : Bytes) (elements : List Bytes) : List LoadItem :=
  elements.map fun element => .ofField .kSet key element (ascii "1")

def localityItems (key : Bytes) : List Bytes → List LoadItem
  | field :: hint :: value :: rest => .ofLocality key hint field value :: localityItems key rest
  | _ => []

/-- What a request names; nothing when its number of arguments is wrong. -/
def Load.items (load : Load) : List LoadItem :=
  match load.command, load.request.tail with
  | .SET, [key, value] => [.ofValue key value]
  | .SET, _ => []
  | .HSET, [key, field, value] => [.ofField .kHash key field value]
  | .HSET, _ => []
  | .HMSET, key :: args =>
    if args.length < 2 ∨ args.length % 2 ≠ 0 then [] else hashItems key args
  | .HMSET, _ => []
  | .SADD, key :: element :: elements => setItems key (element :: elements)
  | .SADD, _ => []
  | .LHSET, [key, field, hint, value] => [.ofLocality key hint field value]
  | .LHSET, _ => []
  | .LHMSET, key :: args =>
    if args.length < 3 ∨ args.length % 3 ≠ 0 then [] else localityItems key args
  | .LHMSET, _ => []

def itemsOf (loads : List Load) : List LoadItem := loads.flatMap Load.items

/-- The records of items, put one after the other on what a new state machine has. -/
def putItems (store : Store) (items : List LoadItem) : Store :=
  items.foldl (fun store item => putAll store item.records) store

def loaded (items : List LoadItem) : Store := putItems freshMachine.store items

/-- Arguments are not empty, a key has one type, a field of a locality hash one hint, and
what is stored decodes back. Sizes fit in 64 bits, with a sign. -/
structure Loadable (loads : List Load) : Prop where
  parts : ∀ load ∈ loads, ∀ part ∈ load.request, part ≠ [] ∧ part.length < 2 ^ 63
  oneType : ∀ a ∈ itemsOf loads, ∀ b ∈ itemsOf loads, a.key = b.key → a.type = b.type
  oneHint : ∀ key name hint hint' value value', .ofLocality key hint name value ∈ itemsOf loads →
    .ofLocality key hint' name value' ∈ itemsOf loads → hint = hint'
  decodes : ∀ item ∈ itemsOf loads, item.Decodes
  room : (itemsOf loads).length < 2 ^ 63

/-! ## Puts in a row -/

section

variable {store : Store} {entries : List (StoreKey × Bytes)} {k : StoreKey} {v : Bytes}

theorem putAll_append (store : Store) (entries entries' : List (StoreKey × Bytes)) :
    putAll store (entries ++ entries') = putAll (putAll store entries) entries' :=
  List.foldl_append

theorem lookup_putAll_of_notMem (h : k ∉ entries.map Prod.fst) :
    (putAll store entries).lookup k = store.lookup k := by
  induction entries generalizing store with
  | nil => rfl
  | cons e entries ih =>
    rw [List.map_cons, List.mem_cons, not_or] at h
    show (putAll (store.insert e.1 e.2) entries).lookup k = _
    rw [ih h.2, AList.lookup_insert_ne h.1]

theorem mem_putAll : k ∈ putAll store entries ↔ k ∈ store ∨ k ∈ entries.map Prod.fst := by
  induction entries generalizing store with
  | nil => simp [putAll]
  | cons e entries ih =>
    show k ∈ putAll (store.insert e.1 e.2) entries ↔ _
    rw [ih, AList.mem_insert, List.map_cons, List.mem_cons]
    tauto

/-- What is found was put, or was there before. -/
theorem mem_of_lookup_putAll (h : (putAll store entries).lookup k = some v) :
    (k, v) ∈ entries ∨ store.lookup k = some v := by
  induction entries generalizing store with
  | nil => exact .inr h
  | cons e entries ih =>
    rcases ih h with hm | hl
    · exact .inl (List.mem_cons_of_mem _ hm)
    · by_cases he : k = e.1
      · rw [he, AList.lookup_insert, Option.some.injEq] at hl
        rw [he, ← hl]
        exact .inl List.mem_cons_self
      · rw [AList.lookup_insert_ne he] at hl
        exact .inr hl

/-- The value that a key is always put with. -/
theorem lookup_putAll (h : (k, v) ∈ entries) (hv : ∀ e ∈ entries, e.1 = k → e.2 = v) :
    (putAll store entries).lookup k = some v := by
  induction entries using List.reverseRecOn with
  | nil => cases h
  | append_singleton entries e ih =>
    rw [putAll_append]
    show ((putAll store entries).insert e.1 e.2).lookup k = _
    by_cases he : k = e.1
    · rw [he, AList.lookup_insert, hv e (List.mem_append_right _ (List.mem_singleton_self e)) he.symm]
    · rw [AList.lookup_insert_ne he]
      refine ih ?_ fun e' he' => hv e' (List.mem_append_left _ he')
      rcases List.mem_append.mp h with h | h
      · exact h
      · cases List.mem_singleton.mp h
        exact absurd rfl he

theorem putItems_eq (store : Store) (items : List LoadItem) :
    putItems store items = putAll store (items.flatMap LoadItem.records) := by
  induction items generalizing store with
  | nil => rfl
  | cons item items ih =>
    rw [List.flatMap_cons, putAll_append, ← ih]
    rfl

theorem loaded_append (done items : List LoadItem) :
    loaded (done ++ items) = putItems (loaded done) items := List.foldl_append

theorem mem_loaded {items : List LoadItem} :
    k ∈ loaded items ↔ k = .lastApplied ∨ k = .clock ∨
      ∃ item ∈ items, k ∈ item.records.map Prod.fst := by
  have hf : k ∈ freshMachine.store ↔ k = .lastApplied ∨ k = .clock := by
    show k ∈ AList.insert _ _ (AList.insert _ _ ∅) ↔ _
    rw [AList.mem_insert, AList.mem_insert]
    simp [AList.notMem_empty]
  unfold loaded
  rw [putItems_eq, mem_putAll, hf, or_assoc]
  simp only [List.mem_map, List.mem_flatMap]
  grind

end

/-! ## Bulkload mode -/

namespace Bulkload

variable {key : Bytes} {type : KeyType} {α : Type}

theorem withOperation_eq (otherwise : α) (body : WriteOperation → BulkM α) :
    withOperation key type otherwise body = body (.fresh key type) := rfl

theorem fresh_keyType (key : Bytes) (type : KeyType) :
    (WriteOperation.fresh key type).keyinfo.keyType = type := by
  unfold WriteOperation.fresh
  dsimp only
  split
  · rfl
  · rfl

theorem finalize_eq (key : Bytes) (hl : KeyDescriptor.layout type = .size) {newsize : Int}
    (h : 0 < newsize) : finalize (.fresh key type) newsize = pure () := by
  have hne : type ≠ .kVersionedHash := by
    rintro rfl
    cases hl
  have hsz : (WriteOperation.fresh key type).keyinfo = { keyType := type } := by
    unfold WriteOperation.fresh
    rw [if_neg hne]
  have hs : KeyDescriptor.serialize { keyType := type, sz := newsize } =
      .ok (type.toChar :: bigInt newsize) := by
    unfold KeyDescriptor.serialize
    rw [hl]
  unfold finalize
  rw [hsz]
  dsimp only
  rw [if_neg (by omega), if_neg (by omega), if_pos (by omega), hs]
  rfl

theorem fieldKey_fresh (hb : type.bearsFields = true) (key field : Bytes) :
    (WriteOperation.fresh key type).fieldKey field = .ok (.field type key field) := by
  rw [← fresh_keyType key type] at hb
  have h := WriteOperation.fieldKey_eq hb field
  rw [fresh_keyType] at h
  exact h

theorem fieldExists_eq (hb : type.bearsFields = true) (key field : Bytes) :
    fieldExists (.fresh key type) field = pure false := by
  unfold fieldExists
  rw [fieldKey_fresh hb]
  rfl

theorem writeField_eq (hb : type.bearsFields = true) (key field value : Bytes) :
    writeField (.fresh key type) field value =
      modify fun store => store.insert (.field type key field) value := by
  unfold writeField
  rw [fieldKey_fresh hb]
  rfl

theorem localityFieldKey_eq {hint : Bytes} (hk : key ≠ []) (hh : hint ≠ []) (field : Bytes) :
    localityFieldKey key hint field =
      .ok (.localityField key (appendEscapedString [] hint ++ field)) := by
  unfold localityFieldKey
  rw [show key.isEmpty = false by simpa using hk, show hint.isEmpty = false by simpa using hh]
  rfl

theorem localityIndexKey_eq {field : Bytes} (hk : key ≠ []) (hf : field ≠ []) :
    localityIndexKey key field = .ok (.localityIndex key field) := by
  unfold localityIndexKey
  rw [show key.isEmpty = false by simpa using hk, show field.isEmpty = false by simpa using hf]
  rfl

/-- Nothing is found, so a field of a locality hash is always new. -/
theorem lhsetInternal_eq {field hint : Bytes} (hk : key ≠ []) (hf : field ≠ []) (hh : hint ≠ [])
    (value : Bytes) :
    lhsetInternal (.fresh key .kLocalityHash) field hint value = do
      modify fun store => putItems store [.ofLocality key hint field value]
      return true := by
  unfold lhsetInternal localityFieldExists getLocalityIndex writeLocalityField writeLocalityIndex
  dsimp only [WriteOperation.fresh]
  rw [localityFieldKey_eq hk hh, localityIndexKey_eq hk hf]
  rfl

variable {store : Store} {fault : Fault → Prop}

theorem yields_hmsetLoop {newsize : Int} {args : List Bytes} (h0 : 0 ≤ newsize)
    (h : newsize + (hashItems key args).length < 2 ^ 63) :
    Yields (hmsetLoop (.fresh key .kHash) newsize args) store
      (fun r store' => r = newsize + (hashItems key args).length ∧
        store' = putItems store (hashItems key args)) fault := by
  induction args using hashItems.induct generalizing newsize store with
  | case1 field value rest ih =>
    have hi : hashItems key (field :: value :: rest) =
        .ofField .kHash key field value :: hashItems key rest := rfl
    rw [hi, List.length_cons] at h
    have h64 : sum64 newsize 1 = newsize + 1 := signed_of_fits (by omega) (by omega)
    unfold hmsetLoop
    rw [fieldExists_eq rfl, writeField_eq rfl, pure_bind, yields_bind, yields_modify]
    simp only [Bool.not_false, if_true]
    rw [h64, hi, List.length_cons]
    refine (ih (by omega) (by omega)).mono fun r store' hr => ?_
    obtain ⟨hr, rfl⟩ := hr
    exact ⟨by omega, rfl⟩
  | case2 args hne =>
    have hi : hashItems key args = [] := by
      unfold hashItems
      split
      · exact (hne _ _ _ rfl).elim
      · rfl
    unfold hmsetLoop
    split
    · exact (hne _ _ _ rfl).elim
    · rw [hi, yields_pure]
      exact ⟨(Int.add_zero newsize).symm, rfl⟩

theorem yields_saddLoop (elements : List Bytes) :
    Yields (saddLoop (.fresh key .kSet) elements) store
      (fun r store' => r = elements.length ∧ store' = putItems store (setItems key elements))
      fault := by
  induction elements generalizing store with
  | nil => exact ⟨rfl, rfl⟩
  | cons element rest ih =>
    unfold saddLoop
    rw [fieldExists_eq rfl, writeField_eq rfl, pure_bind]
    rw [if_pos (show (!false) = true from rfl), yields_bind, yields_modify, yields_bind]
    refine ih.mono fun r store' hr => ?_
    obtain ⟨rfl, rfl⟩ := hr
    rw [yields_pure]
    exact ⟨by rw [if_neg Bool.false_ne_true, List.length_cons]; omega, rfl⟩

theorem yields_lhmsetLoop {args : List Bytes} (hk : key ≠ []) (hargs : ∀ part ∈ args, part ≠ []) :
    Yields (lhmsetLoop (.fresh key .kLocalityHash) args) store
      (fun r store' => r = (localityItems key args).length ∧
        store' = putItems store (localityItems key args)) fault := by
  induction args using localityItems.induct generalizing store with
  | case1 field hint value rest ih =>
    have hf : field ≠ [] := hargs field (by simp)
    have hh : hint ≠ [] := hargs hint (by simp)
    unfold lhmsetLoop
    rw [lhsetInternal_eq hk hf hh, bind_assoc, yields_bind, yields_modify, pure_bind, yields_bind]
    refine (ih fun part hp => hargs part (by simp [hp])).mono fun r store' hr => ?_
    obtain ⟨rfl, rfl⟩ := hr
    rw [yields_pure]
    refine ⟨?_, rfl⟩
    rw [if_pos rfl]
    exact (Int.natCast_succ _).symm
  | case2 args hne =>
    have hi : localityItems key args = [] := by
      unfold localityItems
      split
      · exact (hne _ _ _ _ rfl).elim
      · rfl
    unfold lhmsetLoop
    split
    · exact (hne _ _ _ _ rfl).elim
    · rw [hi]
      exact ⟨rfl, rfl⟩

end Bulkload

theorem length_hashItems {args : List Bytes} (key : Bytes) (h : 2 ≤ args.length) :
    0 < (hashItems key args).length := by
  rcases args with _ | ⟨a, _ | ⟨b, args⟩⟩
  · cases h
  · simp at h
  · exact Nat.succ_pos _

theorem length_localityItems {args : List Bytes} (key : Bytes) (h : 3 ≤ args.length) :
    0 < (localityItems key args).length := by
  rcases args with _ | ⟨a, _ | ⟨b, _ | ⟨c, args⟩⟩⟩
  · cases h
  · simp at h
  · simp at h
  · exact Nat.succ_pos _

theorem Load.items_of_hmset {load : Load} (hc : load.command = .HMSET) {key : Bytes}
    {args : List Bytes} (ht : load.request.tail = key :: args) :
    load.items = if args.length < 2 ∨ args.length % 2 ≠ 0 then [] else hashItems key args := by
  unfold Load.items
  rw [hc, ht]

theorem Load.items_of_lhmset {load : Load} (hc : load.command = .LHMSET) {key : Bytes}
    {args : List Bytes} (ht : load.request.tail = key :: args) :
    load.items = if args.length < 3 ∨ args.length % 3 ≠ 0 then [] else localityItems key args := by
  unfold Load.items
  rw [hc, ht]

/-- In bulkload mode, what a request names is put, and nothing else happens. -/
theorem Load.yields_dispatchWrite {load : Load} {store : Store} {fault : Fault → Prop}
    (hp : ∀ part ∈ load.request, part ≠ [] ∧ part.length < 2 ^ 63)
    (hroom : load.items.length < 2 ^ 63) :
    Yields load.dispatchWrite store (fun _ store' => store' = putItems store load.items)
      fault := by
  have hparts : ∀ part ∈ load.request.tail, part ≠ [] ∧ part.length < 2 ^ 63 :=
    fun part h => hp part (List.mem_of_mem_tail h)
  have hone : sum64 0 1 = 1 := rfl
  unfold Load.dispatchWrite
  dsimp only
  split
  case h_1 key value hc ht =>
    have hi : load.items = [.ofValue key value] := by
      unfold Load.items
      rw [hc, ht]
    obtain ⟨hv, -⟩ := hparts value (by simp [ht])
    have hlen : (0 : Int) < value.length := by
      have := List.length_pos_iff.mpr hv
      omega
    unfold Bulkload.set
    rw [Bulkload.withOperation_eq, Bulkload.finalize_eq key rfl hlen, hi]
    rfl
  case h_3 key field value hc ht =>
    have hi : load.items = [.ofField .kHash key field value] := by
      unfold Load.items
      rw [hc, ht]
    unfold Bulkload.hset
    rw [Bulkload.withOperation_eq, Bulkload.fieldExists_eq rfl, Bulkload.writeField_eq rfl, hi,
      pure_bind]
    dsimp only
    rw [if_pos (show (!false) = true from rfl), show (WriteOperation.fresh key .kHash).keySize = 0
      from rfl, hone, Bulkload.finalize_eq key rfl (by omega)]
    rfl
  case h_5 key args hc ht =>
    rw [Load.items_of_hmset hc ht] at hroom ⊢
    split
    · rfl
    · rename_i hn
      rw [if_neg hn] at hroom
      have hlen : 0 < (hashItems key args).length := length_hashItems key (by omega)
      have heven : ¬ args.length % 2 ≠ 0 := fun h => hn (.inr h)
      unfold Bulkload.hmset
      rw [if_neg heven]
      dsimp only
      rw [Bulkload.withOperation_eq, yields_bind, yields_bind]
      refine (Bulkload.yields_hmsetLoop (Int.le_refl 0) (by omega)).mono fun r store' hr => ?_
      obtain ⟨rfl, rfl⟩ := hr
      rw [Bulkload.finalize_eq key rfl (by omega)]
      rfl
  case h_7 key element elements hc ht =>
    have hi : load.items = setItems key (element :: elements) := by
      unfold Load.items
      rw [hc, ht]
    rw [hi] at hroom ⊢
    unfold setItems at hroom
    rw [List.length_map] at hroom
    unfold Bulkload.sadd
    rw [Bulkload.withOperation_eq, yields_bind, yields_bind]
    refine (Bulkload.yields_saddLoop _).mono fun r store' hr => ?_
    obtain ⟨rfl, rfl⟩ := hr
    have h64 : sum64 0 (element :: elements).length = (element :: elements).length := by
      unfold sum64
      rw [Int.zero_add]
      exact signed_of_fits (by omega) (by omega)
    rw [show (WriteOperation.fresh key .kSet).keySize = 0 from rfl, h64,
      Bulkload.finalize_eq key rfl (by rw [List.length_cons]; omega)]
    rfl
  case h_9 key field hint value hc ht =>
    have hi : load.items = [.ofLocality key hint field value] := by
      unfold Load.items
      rw [hc, ht]
    obtain ⟨hk, -⟩ := hparts key (by simp [ht])
    obtain ⟨hf, -⟩ := hparts field (by simp [ht])
    obtain ⟨hh, -⟩ := hparts hint (by simp [ht])
    unfold Bulkload.lhset
    rw [Bulkload.withOperation_eq, Bulkload.lhsetInternal_eq hk hf hh, bind_assoc, bind_assoc, hi]
    rw [pure_bind, if_pos rfl, show (WriteOperation.fresh key .kLocalityHash).keySize = 0 from rfl,
      hone, Bulkload.finalize_eq key rfl (by omega)]
    rfl
  case h_11 key args hc ht =>
    rw [Load.items_of_lhmset hc ht] at hroom ⊢
    split
    · rfl
    · rename_i hn
      rw [if_neg hn] at hroom
      have hlen : 0 < (localityItems key args).length := length_localityItems key (by omega)
      have hthree : ¬ args.length % 3 ≠ 0 := fun h => hn (.inr h)
      obtain ⟨hk, -⟩ := hparts key (by simp [ht])
      have hargs : ∀ part ∈ args, part ≠ [] := fun part h => (hparts part (by simp [ht, h])).1
      unfold Bulkload.lhmset
      rw [if_neg hthree]
      dsimp only
      rw [Bulkload.withOperation_eq, yields_bind, yields_bind]
      refine (Bulkload.yields_lhmsetLoop hk hargs).mono fun r store' hr => ?_
      obtain ⟨rfl, rfl⟩ := hr
      have h64 : sum64 0 (localityItems key args).length = (localityItems key args).length := by
        unfold sum64
        rw [Int.zero_add]
        exact signed_of_fits (by omega) (by omega)
      rw [show (WriteOperation.fresh key .kLocalityHash).keySize = 0 from rfl, h64,
        Bulkload.finalize_eq key rfl (by omega)]
      rfl
  -- the wrong number of arguments
  all_goals
    have hi : load.items = [] := by
      unfold Load.items
      split
      all_goals first | rfl | grind
    rw [hi]
    rfl

/-- The whole of bulkload mode, before it is over. -/
theorem yields_loadAll {loads : List Load} {store : Store} {fault : Fault → Prop}
    (hp : ∀ load ∈ loads, ∀ part ∈ load.request, part ≠ [] ∧ part.length < 2 ^ 63)
    (hroom : (itemsOf loads).length < 2 ^ 63) :
    Yields (loadAll loads) store (fun _ store' => store' = putItems store (itemsOf loads))
      fault := by
  induction loads generalizing store with
  | nil => rfl
  | cons load loads ih =>
    have hi : itemsOf (load :: loads) = load.items ++ itemsOf loads := List.flatMap_cons
    rw [hi, List.length_append] at hroom
    unfold loadAll
    rw [yields_bind]
    refine (Load.yields_dispatchWrite (hp load List.mem_cons_self) (by omega)).mono
      fun _ store' hs => ?_
    subst hs
    refine (ih (fun l hl => hp l (List.mem_cons_of_mem _ hl)) (by omega)).mono fun _ store' hs => ?_
    rw [hs, hi]
    exact List.foldl_append.symm

/-- What `finalizeBulkload` starts from. -/
theorem bulkload_eq {loads : List Load} (h : Loadable loads) :
    bulkload loads = finalizeBulkload (loaded (itemsOf loads)) := by
  have hload : Yields (loadAll loads) freshMachine.store
      (fun _ store => store = putItems freshMachine.store (itemsOf loads)) (fun _ => False) :=
    yields_loadAll h.parts h.room
  obtain ⟨u, store, hrun, rfl⟩ := hload.exists_ok
  unfold bulkload
  rw [show (loadAll loads).run freshMachine.store = loadAll loads freshMachine.store from rfl, hrun]
  rfl

end quarkdb
