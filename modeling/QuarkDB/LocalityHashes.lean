-- Locality hashes are finite maps from fields to hints and values: the index and the data
-- of a field always agree, so that a field is found whatever hint is given.
import QuarkDB.Batches
import QuarkDB.IndexedCommands

namespace quarkdb

open Endian StateMachine StagingArea Tally Outcome RedisDispatcher

/-! ## Finite maps -/

/-- From fields to hints and values. -/
abbrev LocalityMap := AList (fun _ : Bytes => Bytes × Bytes)

/-- The commands on a locality hash. -/
inductive LocalityCommand
  | lhset (field hint value : Bytes)
  | lhmset (first : Bytes × Bytes × Bytes) (rest : List (Bytes × Bytes × Bytes))
  | lhdel (field : Bytes) (fields : List Bytes)
  | lhlocdel (field hint : Bytes)
  | lhget (field : Bytes) (hint : Option Bytes)
  | lhlen
  | del

namespace LocalityCommand

def command : LocalityCommand → RedisCommand
  | .lhset _ _ _ => .LHSET
  | .lhmset _ _ => .LHMSET
  | .lhdel _ _ => .LHDEL
  | .lhlocdel _ _ => .LHLOCDEL
  | .lhget _ _ => .LHGET
  | .lhlen => .LHLEN
  | .del => .DEL

/-- The arguments that name fields, hints and values, one after the other. -/
def flat (entries : List (Bytes × Bytes × Bytes)) : List Bytes :=
  entries.flatMap fun e => [e.1, e.2.1, e.2.2]

def arguments (key : Bytes) : LocalityCommand → List Bytes
  | .lhset field hint value => [key, field, hint, value]
  | .lhmset first rest => key :: flat (first :: rest)
  | .lhdel field fields => key :: field :: fields
  | .lhlocdel field hint => [key, field, hint]
  | .lhget field hint => key :: field :: hint.toList
  | .lhlen | .del => [key]

def type : LocalityCommand → CommandType
  | .lhget _ _ | .lhlen => .READ
  | _ => .WRITE

/-- A request for the command, in any spelling of its name. -/
def Spells (key : Bytes) (request : RedisRequest) (c : LocalityCommand) : Prop :=
  getCommand request = c.command ∧ request.tail = c.arguments key

instance (key : Bytes) (request : RedisRequest) (c : LocalityCommand) :
    Decidable (c.Spells key request) := inferInstanceAs (Decidable (_ ∧ _))

/-- How many fields a command may add. -/
def adds : LocalityCommand → Nat
  | .lhset _ _ _ => 1
  | .lhmset _ rest => rest.length + 1
  | _ => 0

def insertAll (entries : List (Bytes × Bytes × Bytes)) (map : LocalityMap) : LocalityMap :=
  entries.foldl (fun map e => map.insert e.1 e.2) map

/-- How many of the fields are there, one after the other, and what is left without them. -/
def eraseAll : List Bytes → LocalityMap → Int × LocalityMap
  | [], map => (0, map)
  | field :: rest, map =>
    let later := eraseAll rest (map.erase field)
    (later.1 + if field ∈ map then 1 else 0, later.2)

/-- The value of a field, if it has one. -/
def found (field : Bytes) (map : LocalityMap) : Bytes :=
  ((map.lookup field).map fun e => Formatter.string e.2).getD Formatter.null

/-- What a map answers. -/
def answer : LocalityCommand → LocalityMap → Bytes × LocalityMap
  | .lhset field hint value, map => (flag (field ∉ map), map.insert field (hint, value))
  | .lhmset first rest, map => (Formatter.ok, insertAll (first :: rest) map)
  | .lhdel field fields, map =>
    (Formatter.integer (eraseAll (field :: fields) map).1, (eraseAll (field :: fields) map).2)
  | .lhlocdel field hint, map =>
    if (map.lookup field).map Prod.fst = some hint then
      (Formatter.integer 1, map.erase field)
    else (Formatter.integer 0, map)
  | .lhget field _, map => (found field map, map)
  | .lhlen, map => (Formatter.integer map.keys.length, map)
  | .del, map => (Formatter.integer (if map.keys = [] then 0 else 1), ∅)

end LocalityCommand

/-- The fields and hints that commands name. None is empty, and no two pairs of them have
the same encoding. -/
structure Vocabulary where
  hint : Bytes → Prop
  field : Bytes → Prop
  hint_ne : ∀ h, hint h → h ≠ []
  field_ne : ∀ f, field f → f ≠ []
  apart : ∀ h f h' f', hint h → field f → hint h' → field f' →
    appendEscapedString [] h ++ f = appendEscapedString [] h' ++ f' → h = h' ∧ f = f'

/-- A command names only fields and hints of a vocabulary; LHGET may leave the hint out, or
give an empty one. -/
def LocalityCommand.Names (w : Vocabulary) : LocalityCommand → Prop
  | .lhset field hint _ => w.field field ∧ w.hint hint
  | .lhmset first rest => ∀ e ∈ first :: rest, w.field e.1 ∧ w.hint e.2.1
  | .lhdel field fields => ∀ f ∈ field :: fields, w.field f
  | .lhlocdel field hint => w.field field ∧ w.hint hint
  | .lhget field hint => w.field field ∧ ∀ h, hint = some h → h ≠ [] → w.hint h
  | .lhlen | .del => True

/-! ## What the store holds of a locality hash -/

/-- Where the value of a field is stored. -/
abbrev dataKey (key hint field : Bytes) : StoreKey :=
  .localityField key (appendEscapedString [] hint ++ field)

theorem index_ne_data {key field x : Bytes} :
    StoreKey.localityIndex key field ≠ .localityField key x := nofun

/-- The store holds, of each field of the map, the hint and the value. -/
structure Mapped (w : Vocabulary) (store : Store) (key : Bytes) (map : LocalityMap) : Prop where
  localities : Localities store key map.keys.length map.keys.length
  names : ∀ f h v, map.lookup f = some (h, v) → w.field f ∧ w.hint h
  index : ∀ f, store.lookup (.localityIndex key f) = (map.lookup f).map Prod.fst
  data : ∀ x v, store.lookup (.localityField key x) = some v ↔
    ∃ f h, map.lookup f = some (h, v) ∧ x = appendEscapedString [] h ++ f

section

variable {w : Vocabulary} {store store' : Store} {key : Bytes} {map map' : LocalityMap}
  {f h v : Bytes}

theorem Mapped.lookup_data (m : Mapped w store key map) (hm : map.lookup f = some (h, v)) :
    store.lookup (dataKey key h f) = some v :=
  (m.data _ v).mpr ⟨f, h, hm, rfl⟩

/-- A field is found under its own hint, and under no other. -/
theorem Mapped.data_iff (m : Mapped w store key map) (hf : w.field f) (hh : w.hint h) :
    store.lookup (dataKey key h f) = some v ↔ map.lookup f = some (h, v) := by
  constructor
  · intro hl
    obtain ⟨f', h', hm, he⟩ := (m.data _ v).mp hl
    obtain ⟨hf', hh'⟩ := m.names f' h' v hm
    obtain ⟨rfl, rfl⟩ := w.apart h f h' f' hh hf hh' hf' he
    exact hm
  · exact m.lookup_data

theorem Mapped.mem_data_iff (m : Mapped w store key map) (hf : w.field f) (hh : w.hint h) :
    dataKey key h f ∈ store ↔ (map.lookup f).map Prod.fst = some h := by
  rw [← AList.lookup_isSome, Option.isSome_iff_exists, Option.map_eq_some_iff]
  constructor
  · rintro ⟨v, hv⟩
    exact ⟨(h, v), (m.data_iff hf hh).mp hv, rfl⟩
  · rintro ⟨⟨h', v⟩, hm, rfl⟩
    exact ⟨v, (m.data_iff hf hh).mpr hm⟩

/-- The index of a field holds a hint just when the field has data under that hint, and
under no other. -/
theorem Mapped.index_iff (m : Mapped w store key map) (hf : w.field f) (hh : w.hint h) :
    store.lookup (.localityIndex key f) = some h ↔
      dataKey key h f ∈ store ∧ ∀ h', w.hint h' → dataKey key h' f ∈ store → h' = h := by
  rw [m.index, m.mem_data_iff hf hh]
  constructor
  · intro hi
    refine ⟨hi, fun h' hh' hd => ?_⟩
    rw [m.mem_data_iff hf hh', hi] at hd
    exact (Option.some.inj hd).symm
  · exact fun hi => hi.1

theorem length_keys_congr (hl : ∀ f, map.lookup f = map'.lookup f) :
    map.keys.length = map'.keys.length := by
  have hc : count map (fun _ => true) = count map' fun _ => true := by
    apply count_congr
    intro f _
    rw [← AList.lookup_isSome, ← AList.lookup_isSome, hl f]
  simpa [count] using hc

/-- Only what is looked up matters. -/
theorem Mapped.congr (m : Mapped w store key map) (hs : SameData key store store')
    (hl : ∀ f, map.lookup f = map'.lookup f) : Mapped w store' key map' := by
  have hlen := length_keys_congr hl
  refine ⟨⟨hs.only m.localities.only, ?_, ?_⟩, ?_, ?_, ?_⟩
  · rw [← hs.count fun k => owner_of_isLocalityField, ← hlen]
    exact m.localities.fields_eq
  · rw [← hs.count fun k => owner_of_isLocalityIndex, ← hlen]
    exact m.localities.indices_eq
  · intro f h v hm
    rw [← hl f] at hm
    exact m.names f h v hm
  · intro f
    rw [← hs _ rfl rfl, ← hl f]
    exact m.index f
  · intro x v
    rw [← hs _ rfl rfl, m.data]
    simp only [hl]

theorem length_keys_erase (hm : f ∈ map) : ((map.erase f).keys.length : Int) = map.keys.length - 1 := by
  have hc := count_erase_of_mem (p := fun _ => true) hm rfl
  simp only [count, List.countP_true] at hc
  omega

theorem length_keys_insert (hm : f ∉ map) (e : Bytes × Bytes) :
    ((map.insert f e).keys.length : Int) = map.keys.length + 1 := by
  have hc := count_insert_of_notMem (p := fun _ => true) e hm rfl
  simp only [count, List.countP_true] at hc
  omega

/-- A field goes, with its index and its data. -/
theorem Mapped.erase (m : Mapped w store key map) (hm : map.lookup f = some (h, v)) :
    Mapped w ((store.erase (dataKey key h f)).erase (.localityIndex key f)) key (map.erase f) := by
  have hmem : f ∈ map := AList.lookup_isSome.mp (by rw [hm]; rfl)
  have hd : dataKey key h f ∈ store := AList.lookup_isSome.mp (by rw [m.lookup_data hm]; rfl)
  have hi : .localityIndex key f ∈ store.erase (dataKey key h f) := by
    refine AList.mem_erase.mpr ⟨nofun, AList.lookup_isSome.mp ?_⟩
    rw [m.index f, hm]
    rfl
  obtain ⟨hf, hh⟩ := m.names f h v hm
  refine ⟨?_, ?_, ?_, ?_⟩
  · rw [length_keys_erase hmem]
    exact (m.localities.erase_field hd).erase_index hi
  · intro f' h' v' hl
    by_cases he : f' = f
    · rw [he, AList.lookup_erase] at hl
      cases hl
    · rw [AList.lookup_erase_ne he] at hl
      exact m.names f' h' v' hl
  · intro f'
    by_cases he : f' = f
    · rw [he, AList.lookup_erase, AList.lookup_erase]
      rfl
    · rw [AList.lookup_erase_ne (fun hk => he (StoreKey.localityIndex.inj hk).2),
        AList.lookup_erase_ne index_ne_data, AList.lookup_erase_ne he]
      exact m.index f'
  · intro x v'
    rw [AList.lookup_erase_ne index_ne_data.symm]
    by_cases hx : x = appendEscapedString [] h ++ f
    · rw [hx, AList.lookup_erase]
      constructor
      · nofun
      · rintro ⟨f', h', hl, he⟩
        by_cases hff : f' = f
        · rw [hff, AList.lookup_erase] at hl
          cases hl
        · rw [AList.lookup_erase_ne hff] at hl
          obtain ⟨hf', hh'⟩ := m.names f' h' v' hl
          exact absurd (w.apart h f h' f' hh hf hh' hf' he).2.symm hff
    · rw [AList.lookup_erase_ne (fun hk => hx (StoreKey.localityField.inj hk).2), m.data]
      constructor
      · rintro ⟨f', h', hl, rfl⟩
        have hff : f' ≠ f := by
          rintro rfl
          rw [hm] at hl
          cases hl
          exact hx rfl
        exact ⟨f', h', by rwa [AList.lookup_erase_ne hff], rfl⟩
      · rintro ⟨f', h', hl, rfl⟩
        have hff : f' ≠ f := by
          rintro rfl
          rw [AList.lookup_erase] at hl
          cases hl
        rw [AList.lookup_erase_ne hff] at hl
        exact ⟨f', h', hl, rfl⟩

/-- A new field comes, with its index and its data. -/
theorem Mapped.insert (m : Mapped w store key map) (hn : map.lookup f = none) (hf : w.field f)
    (hh : w.hint h) (v : Bytes) :
    Mapped w ((store.insert (dataKey key h f) v).insert (.localityIndex key f) h) key
      (map.insert f (h, v)) := by
  have hmem : f ∉ map := AList.lookup_eq_none.mp hn
  have hd : dataKey key h f ∉ store := by
    rw [m.mem_data_iff hf hh, hn]
    nofun
  have hi : .localityIndex key f ∉ store.insert (dataKey key h f) v := by
    rw [AList.mem_insert, not_or]
    refine ⟨nofun, AList.lookup_eq_none.mp ?_⟩
    rw [m.index f, hn]
    rfl
  refine ⟨?_, ?_, ?_, ?_⟩
  · have hl := (m.localities.insert_field (appendEscapedString [] h ++ f) v).insert_index f h
    rw [if_neg hd, if_neg hi] at hl
    rw [length_keys_insert hmem]
    exact hl
  · intro f' h' v' hl
    by_cases he : f' = f
    · rw [he, AList.lookup_insert] at hl
      cases hl
      rw [he]
      exact ⟨hf, hh⟩
    · rw [AList.lookup_insert_ne he] at hl
      exact m.names f' h' v' hl
  · intro f'
    by_cases he : f' = f
    · rw [he, AList.lookup_insert, AList.lookup_insert]
      rfl
    · rw [AList.lookup_insert_ne (fun hk => he (StoreKey.localityIndex.inj hk).2),
        AList.lookup_insert_ne index_ne_data, AList.lookup_insert_ne he]
      exact m.index f'
  · intro x v'
    rw [AList.lookup_insert_ne index_ne_data.symm]
    by_cases hx : x = appendEscapedString [] h ++ f
    · rw [hx, AList.lookup_insert]
      constructor
      · intro he
        cases he
        exact ⟨f, h, AList.lookup_insert _, rfl⟩
      · rintro ⟨f', h', hl, he⟩
        by_cases hff : f' = f
        · rw [hff, AList.lookup_insert] at hl
          cases hl
          rfl
        · rw [AList.lookup_insert_ne hff] at hl
          obtain ⟨hf', hh'⟩ := m.names f' h' v' hl
          exact absurd (w.apart h f h' f' hh hf hh' hf' he).2.symm hff
    · rw [AList.lookup_insert_ne (fun hk => hx (StoreKey.localityField.inj hk).2), m.data]
      constructor
      · rintro ⟨f', h', hl, rfl⟩
        have hff : f' ≠ f := by
          rintro rfl
          rw [hn] at hl
          cases hl
        exact ⟨f', h', by rwa [AList.lookup_insert_ne hff], rfl⟩
      · rintro ⟨f', h', hl, rfl⟩
        have hff : f' ≠ f := by
          rintro rfl
          rw [AList.lookup_insert] at hl
          cases hl
          exact hx rfl
        rw [AList.lookup_insert_ne hff] at hl
        exact ⟨f', h', hl, rfl⟩

end

/-- A field that is there gets another hint or another value. -/
theorem Mapped.replace {w : Vocabulary} {store store' : Store} {key : Bytes} {map : LocalityMap}
    {f h v : Bytes} {old : Bytes × Bytes} (m : Mapped w store key map)
    (hm : map.lookup f = some old) (hh : w.hint h)
    (hs : ∀ k : StoreKey, k.owner = some key → store'.lookup k =
      ((((store.erase (dataKey key old.1 f)).erase (.localityIndex key f)).insert (dataKey key h f)
        v).insert (.localityIndex key f) h).lookup k) :
    Mapped w store' key (map.insert f (h, v)) := by
  have hf := (m.names f old.1 old.2 hm).1
  have hnew := (m.erase (f := f) (h := old.1) (v := old.2) hm).insert (AList.lookup_erase _ _) hf hh v
  refine hnew.congr (fun k ho _ => (hs k ho).symm) fun g => ?_
  by_cases hg : g = f
  · rw [hg, AList.lookup_insert, AList.lookup_insert]
  · rw [AList.lookup_insert_ne hg, AList.lookup_erase_ne hg, AList.lookup_insert_ne hg]

/-- What the store holds of a locality hash. An empty one is not there at all. -/
def RepresentsMap (w : Vocabulary) (store : Store) (key : Bytes) (map : LocalityMap) : Prop :=
  (map.keys = [] ∧ ∀ k ∈ store, k.owner ≠ some key) ∨
  map.keys ≠ [] ∧ Mapped w store key map ∧ ∃ bytes d, store.lookup (.descriptor key) = some bytes ∧
    KeyDescriptor.ofBytes bytes = .ok d ∧ d.keyType = .kLocalityHash ∧ d.sz = map.keys.length

section

variable {w : Vocabulary} {store store' : Store} {key : Bytes} {map : LocalityMap}

theorem lookup_of_no_keys (h : map.keys = []) (f : Bytes) : map.lookup f = none := by
  rw [AList.lookup_eq_none, AList.mem_keys, h]
  exact List.not_mem_nil

theorem Mapped.of_nothing (hz : map.keys = []) (hn : ∀ k ∈ store, k.owner ≠ some key) :
    Mapped w store key map := by
  have hl : ∀ k : StoreKey, k.owner = some key → store.lookup k = none :=
    fun k ho => AList.lookup_eq_none.mpr fun hk => hn k hk ho
  have hmap := lookup_of_no_keys hz
  have hd : Data store key { keyType := .kLocalityHash } := Data.of_nothing hn rfl nofun
  refine ⟨by rw [hz]; exact hd.localities rfl, ?_, ?_, ?_⟩
  · intro f h v hm
    rw [hmap f] at hm
    cases hm
  · intro f
    rw [hl _ rfl, hmap f]
    rfl
  · intro x v
    rw [hl _ rfl]
    simp [hmap]

theorem RepresentsMap.mapped (h : RepresentsMap w store key map) : Mapped w store key map := by
  rcases h with ⟨hz, hn⟩ | ⟨-, hm, -⟩
  · exact Mapped.of_nothing hz hn
  · exact hm

theorem RepresentsMap.congr
    (hs : ∀ k : StoreKey, k.owner = some key → store'.lookup k = store.lookup k)
    (h : RepresentsMap w store key map) : RepresentsMap w store' key map := by
  rcases h with ⟨hz, hn⟩ | ⟨hne, hm, bytes, d, hl, hd⟩
  · refine .inl ⟨hz, fun k hk ho => hn k ?_ ho⟩
    rw [← AList.lookup_isSome, ← hs k ho, AList.lookup_isSome]
    exact hk
  · refine .inr ⟨hne, hm.congr (fun k ho _ => (hs k ho).symm) fun _ => rfl, bytes, d, ?_, hd⟩
    rw [hs _ rfl]
    exact hl

end

/-! ## The operations -/

/-- The way in which a command on an empty key fails: its locators do not take one. -/
def Keyless (key : Bytes) (e : Fault) : Prop := key = [] ∧ e = .assertion "!redisKey.empty()"

/-- An operation on a locality hash, and what its contents have become. -/
structure Editing (w : Vocabulary) (key : Bytes) (desc : Option Bytes) (op : WriteOperation)
    (map : LocalityMap) (s : StagingArea) : Prop where
  opened : Opened key .kLocalityHash desc op
  descriptor : s.store.lookup (.descriptor key) = desc
  mapped : Mapped w s.store key map

section

variable {w : Vocabulary} {key : Bytes} {desc : Option Bytes} {op : WriteOperation}
  {map : LocalityMap} {s : StagingArea} {f h v : Bytes}

theorem yields_localityFieldKey (hh : h ≠ []) {post : StoreKey → StagingArea → Prop}
    (hp : key ≠ [] → post (dataKey key h f) s) :
    Yields (throwing (localityFieldKey key h f)) s post (Keyless key) := by
  cases key with
  | nil => exact ⟨rfl, rfl⟩
  | cons c key =>
    cases h with
    | nil => exact absurd rfl hh
    | cons c' h => exact hp nofun

theorem yields_localityIndexKey (hf : f ≠ []) {post : StoreKey → StagingArea → Prop}
    (hp : key ≠ [] → post (.localityIndex key f) s) :
    Yields (throwing (localityIndexKey key f)) s post (Keyless key) := by
  cases key with
  | nil => exact ⟨rfl, rfl⟩
  | cons c key =>
    cases f with
    | nil => exact absurd rfl hf
    | cons c' f => exact hp nofun

/-- An operation starts with the contents that the map says. -/
theorem yields_edit {α : Type} {otherwise : α} {body : WriteOperation → StagingM α}
    {post : α → StagingArea → Prop} {fault : Fault → Prop} (h : RepresentsMap w s.store key map)
    (hbody : ∀ desc op, Editing w key desc op map s → op.keySize = map.keys.length →
      Yields (body op) s post fault) :
    Yields (withOperation key .kLocalityHash otherwise body) s post fault := by
  have hm := h.mapped
  rcases h with ⟨hz, hn⟩ | ⟨-, -, bytes, d, hl, hd, ht, hsz⟩
  · have hnone : s.store.lookup (.descriptor key) = none :=
      AList.lookup_eq_none.mpr fun hk => hn _ hk rfl
    rw [yields_withOperation_fresh hnone]
    refine hbody none _ ⟨⟨rfl, rfl, rfl, rfl, nofun, fun _ => ⟨rfl, fun _ => rfl⟩⟩, hnone, hm⟩ ?_
    rw [hz]
    rfl
  · rw [yields_withOperation_known hl hd ht nofun]
    refine hbody (some bytes) _ ⟨⟨rfl, rfl, ht, rfl, fun bytes' he => ?_, nofun⟩, hl, hm⟩ hsz
    cases he
    exact hd

section

variable (ho : Opened key .kLocalityHash desc op)

include ho

theorem yields_localityFieldExists (hh : h ≠ []) {post : Bool → StagingArea → Prop}
    (hp : key ≠ [] → post (s.store.lookup (dataKey key h f)).isSome s) :
    Yields (op.localityFieldExists h f) s post (Keyless key) := by
  unfold WriteOperation.localityFieldExists
  rw [WriteOperation.assertLocality_valid ho.valid ho.keyType_eq, pure_bind, yields_bind,
    ho.redisKey_eq]
  exact yields_localityFieldKey hh hp

theorem yields_writeLocalityField (hh : h ≠ []) {post : Unit → StagingArea → Prop}
    (hp : key ≠ [] → post () (s.putIn (dataKey key h f) v)) :
    Yields (op.writeLocalityField h f v) s post (Keyless key) := by
  unfold WriteOperation.writeLocalityField
  rw [WriteOperation.assertLocality_valid ho.valid ho.keyType_eq, pure_bind, yields_bind,
    ho.redisKey_eq]
  exact yields_localityFieldKey hh hp

theorem yields_deleteLocalityField (hh : h ≠ []) (hm : dataKey key h f ∈ s.store)
    {post : Bool → StagingArea → Prop}
    (hp : key ≠ [] → post true (s.delIn (dataKey key h f))) :
    Yields (op.deleteLocalityField h f) s post (Keyless key) := by
  unfold WriteOperation.deleteLocalityField
  rw [WriteOperation.assertLocality_valid ho.valid ho.keyType_eq, pure_bind, yields_bind,
    ho.redisKey_eq]
  refine yields_localityFieldKey hh fun hk => ?_
  rw [yields_deleteKey hm]
  exact hp hk

theorem yields_getLocalityIndex (hf : f ≠ []) {post : Option Bytes → StagingArea → Prop}
    (hp : key ≠ [] → post (s.store.lookup (.localityIndex key f)) s) :
    Yields (op.getLocalityIndex f) s post (Keyless key) := by
  unfold WriteOperation.getLocalityIndex
  rw [WriteOperation.assertLocality_valid ho.valid ho.keyType_eq, pure_bind, yields_bind,
    ho.redisKey_eq]
  exact yields_localityIndexKey hf hp

theorem yields_writeLocalityIndex (hf : f ≠ []) {post : Unit → StagingArea → Prop}
    (hp : key ≠ [] → post () (s.putIn (.localityIndex key f) h)) :
    Yields (op.writeLocalityIndex f h) s post (Keyless key) := by
  unfold WriteOperation.writeLocalityIndex
  rw [WriteOperation.assertLocality_valid ho.valid ho.keyType_eq, pure_bind, yields_bind,
    ho.redisKey_eq]
  exact yields_localityIndexKey hf hp

theorem yields_getAndDeleteLocalityIndex (hf : f ≠ [])
    {post : Option Bytes → StagingArea → Prop}
    (hsome : ∀ hint, s.store.lookup (.localityIndex key f) = some hint → key ≠ [] →
      post (some hint) (s.delIn (.localityIndex key f)))
    (hnone : s.store.lookup (.localityIndex key f) = none → post none s) :
    Yields (op.getAndDeleteLocalityIndex f) s post (Keyless key) := by
  unfold WriteOperation.getAndDeleteLocalityIndex
  rw [WriteOperation.assertLocality_valid ho.valid ho.keyType_eq, pure_bind, yields_bind,
    ho.redisKey_eq]
  refine yields_localityIndexKey hf fun hk => ?_
  rw [yields_bind, yields_lookup]
  rcases hl : s.store.lookup (.localityIndex key f) with _ | hint
  · rw [hl]
    exact hnone hl
  · rw [hl]
    exact hsome hint hl hk

end

/-- One field is written, whether it is new, has the same hint, or has another one. -/
theorem yields_lhsetInternal (e : Editing w key desc op map s) (hf : w.field f) (hh : w.hint h) :
    Yields (lhsetInternal op f h v) s
      (fun created s' => created = decide (f ∉ map) ∧ Editing w key desc op (map.insert f (h, v)) s')
      (Keyless key) := by
  have hhne := w.hint_ne h hh
  have hfne := w.field_ne f hf
  have hmem : f ∈ map ↔ (map.lookup f).isSome = true := AList.lookup_isSome.symm
  unfold lhsetInternal
  rw [yields_bind]
  refine yields_localityFieldExists e.opened hhne fun _ => ?_
  rcases hl : s.store.lookup (dataKey key h f) with _ | old
  · rw [Option.isSome_none, if_neg nofun, yields_bind]
    refine yields_getLocalityIndex e.opened hfne fun _ => ?_
    rw [e.mapped.index f]
    rcases hm : map.lookup f with _ | ⟨previousHint, old⟩
    · -- a new field
      dsimp only [Option.map_none]
      rw [yields_bind]
      refine yields_writeLocalityField e.opened hhne fun _ => ?_
      rw [yields_bind]
      refine yields_writeLocalityIndex e.opened hfne fun _ => ?_
      rw [yields_pure]
      refine ⟨by simp [hmem, hm], e.opened, ?_, e.mapped.insert hm hf hh v⟩
      show ((s.store.insert _ _).insert _ _).lookup _ = _
      rw [AList.lookup_insert_ne (ne_descriptor rfl), AList.lookup_insert_ne (ne_descriptor rfl)]
      exact e.descriptor
    · -- the old entry goes, and a new one comes in its place
      dsimp only [Option.map_some]
      have hprev := (e.mapped.names f previousHint old hm).2
      have hold : dataKey key previousHint f ∈ s.store :=
        AList.lookup_isSome.mp (by rw [e.mapped.lookup_data hm]; rfl)
      rw [yields_bind]
      refine yields_deleteLocalityField e.opened (w.hint_ne _ hprev) hold fun _ => ?_
      rw [assertThat_true, pure_bind, yields_bind]
      refine yields_writeLocalityField e.opened hhne fun _ => ?_
      rw [yields_bind]
      refine yields_writeLocalityIndex e.opened hfne fun _ => ?_
      rw [yields_pure]
      refine ⟨by simp [hmem, hm], e.opened, ?_, e.mapped.replace hm hh fun k _ => ?_⟩
      · show (((s.store.erase _).insert _ _).insert _ _).lookup _ = _
        rw [AList.lookup_insert_ne (ne_descriptor rfl), AList.lookup_insert_ne (ne_descriptor rfl),
          AList.lookup_erase_ne (ne_descriptor rfl)]
        exact e.descriptor
      · show (((s.store.erase _).insert _ _).insert _ _).lookup _ = _
        by_cases hi : k = .localityIndex key f
        · rw [hi, AList.lookup_insert, AList.lookup_insert]
        · rw [AList.lookup_insert_ne hi, AList.lookup_insert_ne hi]
          by_cases hk : k = dataKey key h f
          · rw [hk, AList.lookup_insert, AList.lookup_insert]
          · rw [AList.lookup_insert_ne hk, AList.lookup_insert_ne hk, AList.lookup_erase_ne hi]
  · -- the same hint: only the value changes
    have hm := (e.mapped.data_iff hf hh).mp hl
    rw [Option.isSome_some, if_pos rfl, yields_bind]
    refine yields_writeLocalityField e.opened hhne fun _ => ?_
    rw [yields_pure]
    refine ⟨by simp [hmem, hm], e.opened, ?_, e.mapped.replace hm hh fun k _ => ?_⟩
    · show (s.store.insert _ _).lookup _ = _
      rw [AList.lookup_insert_ne (ne_descriptor rfl)]
      exact e.descriptor
    · show (s.store.insert _ _).lookup _ = _
      by_cases hi : k = .localityIndex key f
      · rw [hi, AList.lookup_insert, AList.lookup_insert_ne index_ne_data, e.mapped.index f, hm]
        rfl
      · rw [AList.lookup_insert_ne hi]
        by_cases hk : k = dataKey key h f
        · rw [hk, AList.lookup_insert, AList.lookup_insert]
        · rw [AList.lookup_insert_ne hk, AList.lookup_insert_ne hk, AList.lookup_erase_ne hi,
            AList.lookup_erase_ne hk]

/-- The descriptor is written if the size has changed, or goes with the last field. -/
theorem yields_finalize_map (e : Editing w key desc op map s) {newsize : Int}
    (hn : newsize = map.keys.length) (hlt : map.keys.length < 2 ^ 63) {fault : Fault → Prop} :
    Yields (op.finalize newsize false) s (fun _ s' => RepresentsMap w s'.store key map) fault := by
  subst hn
  have hdata : Data s.store key { op.keyinfo with sz := (map.keys.length : Int) } :=
    e.mapped.localities.data e.opened.keyType_eq
  have hne : op.keyinfo.keyType ≠ .kVersionedHash := by
    rw [e.opened.keyType_eq]
    nofun
  by_cases hz : map.keys = []
  · rw [hz]
    show Yields (op.finalize 0 false) _ _ _
    rw [yields_finalize_gone e.opened.valid hne, e.opened.redisKey_eq]
    exact .inl ⟨hz, hdata.erased (by rw [hz]; rfl)⟩
  · have hpos : 0 < map.keys.length := List.length_pos_iff.mpr hz
    by_cases hsame : op.keyinfo.sz = map.keys.length
    · -- nothing is written: the descriptor says it already
      rw [← hsame, yields_finalize_kept e.opened.valid (by omega) (by omega) rfl]
      rcases hd : desc with _ | bytes
      · have := (e.opened.fresh hd).1
        omega
      · exact .inr ⟨hz, e.mapped, bytes, op.keyinfo, e.descriptor.trans hd,
          e.opened.known bytes hd, e.opened.keyType_eq, hsame⟩
    · obtain ⟨bytes, hs⟩ : ∃ bytes,
          KeyDescriptor.serialize { op.keyinfo with sz := (map.keys.length : Int) } = .ok bytes := by
        unfold KeyDescriptor.serialize
        dsimp only
        rw [e.opened.keyType_eq]
        exact ⟨_, rfl⟩
      obtain ⟨d, hd, ht, hsz, -⟩ := ofBytes_serialize hs (by dsimp only; omega)
        (by dsimp only; omega)
      rw [yields_finalize_written e.opened.valid (by omega) (by omega) (.inl hsame) hs,
        e.opened.redisKey_eq]
      refine .inr ⟨hz, e.mapped.congr (fun k _ hk => ?_) fun _ => rfl, bytes, d,
        AList.lookup_insert _, hd, ht.trans e.opened.keyType_eq, hsz⟩
      exact (AList.lookup_insert_ne (ne_descriptor hk).symm).symm

theorem length_keys_insert_le (map : LocalityMap) (f : Bytes) (e : Bytes × Bytes) :
    (map.insert f e).keys.length ≤ map.keys.length + 1 := length_insert_le map f e

/-- A field is one more, unless it was there. -/
theorem length_keys_insert_eq (map : LocalityMap) (f : Bytes) (e : Bytes × Bytes) :
    ((map.insert f e).keys.length : Int) =
      map.keys.length + if decide (f ∉ map) = true then 1 else 0 := by
  by_cases hm : f ∈ map
  · have hc := count_insert_of_mem (p := fun _ => true) e hm
    simp only [count, List.countP_true] at hc
    rw [hc, if_neg (by simp [hm]), Int.add_zero]
  · rw [length_keys_insert hm e, if_pos (decide_eq_true hm)]

theorem yields_lhset (hr : RepresentsMap w s.store key map) (hf : w.field f) (hh : w.hint h)
    (hlt : map.keys.length + 1 < 2 ^ 63) :
    Yields (lhset key f h v) s
      (fun r s' => r = (.OK, decide (f ∉ map)) ∧ RepresentsMap w s'.store key (map.insert f (h, v)))
      (Keyless key) := by
  unfold lhset
  refine yields_edit hr fun desc op e hsize => ?_
  rw [yields_bind]
  refine (yields_lhsetInternal e hf hh).mono fun created s' h' => ?_
  obtain ⟨rfl, e'⟩ := h'
  have hlen := length_keys_insert_eq map f (h, v)
  have hle := length_keys_insert_le map f (h, v)
  rw [yields_bind]
  refine (yields_finalize_map e' ?_ (by omega)).mono fun _ s'' h'' => ?_
  · rw [sum64_of_fits (by omega) (by omega), hsize, hlen]
  · rw [yields_pure]
    exact ⟨rfl, h''⟩

theorem length_keys_insertAll_le (entries : List (Bytes × Bytes × Bytes)) (map : LocalityMap) :
    (LocalityCommand.insertAll entries map).keys.length ≤ map.keys.length + entries.length := by
  induction entries generalizing map with
  | nil => exact Nat.le_refl _
  | cons e rest ih =>
    have h1 := ih (map.insert e.1 e.2)
    have h2 := length_keys_insert_le map e.1 e.2
    rw [List.length_cons]
    show (LocalityCommand.insertAll rest (map.insert e.1 e.2)).keys.length ≤ _
    omega

theorem yields_lhmsetLoop (entries : List (Bytes × Bytes × Bytes)) {s : StagingArea}
    {map : LocalityMap} (e : Editing w key desc op map s)
    (hn : ∀ x ∈ entries, w.field x.1 ∧ w.hint x.2.1) :
    Yields (lhmsetLoop op (LocalityCommand.flat entries)) s
      (fun created s' =>
        created = (LocalityCommand.insertAll entries map).keys.length - (map.keys.length : Int) ∧
        Editing w key desc op (LocalityCommand.insertAll entries map) s') (Keyless key) := by
  induction entries generalizing s map with
  | nil =>
    show Yields (pure 0) s _ _
    rw [yields_pure]
    exact ⟨by simp [LocalityCommand.insertAll], e⟩
  | cons x rest ih =>
    obtain ⟨f, h, v⟩ := x
    obtain ⟨hf, hh⟩ := hn (f, h, v) List.mem_cons_self
    dsimp only at hf hh
    have hlen := length_keys_insert_eq map f (h, v)
    show Yields (lhmsetLoop op (f :: h :: v :: LocalityCommand.flat rest)) s _ _
    unfold lhmsetLoop
    rw [yields_bind]
    refine (yields_lhsetInternal e hf hh).mono fun created s' h' => ?_
    obtain ⟨rfl, e'⟩ := h'
    rw [yields_bind]
    refine (ih e' fun y hy => hn y (List.mem_cons_of_mem _ hy)).mono fun more s'' h'' => ?_
    obtain ⟨rfl, e''⟩ := h''
    rw [yields_pure]
    refine ⟨?_, e''⟩
    show _ = ((LocalityCommand.insertAll rest (map.insert f (h, v))).keys.length : Int) - _
    omega

theorem length_flat (entries : List (Bytes × Bytes × Bytes)) :
    (LocalityCommand.flat entries).length = 3 * entries.length := by
  induction entries with
  | nil => rfl
  | cons x rest ih =>
    have hcons : LocalityCommand.flat (x :: rest) = x.1 :: x.2.1 :: x.2.2 :: LocalityCommand.flat rest :=
      rfl
    rw [hcons]
    simp only [List.length_cons, ih]
    omega

theorem yields_lhmset {entries : List (Bytes × Bytes × Bytes)}
    (hr : RepresentsMap w s.store key map) (hn : ∀ x ∈ entries, w.field x.1 ∧ w.hint x.2.1)
    (hlt : map.keys.length + entries.length < 2 ^ 63) :
    Yields (lhmset key (LocalityCommand.flat entries)) s
      (fun r s' => r = .OK ∧
        RepresentsMap w s'.store key (LocalityCommand.insertAll entries map)) (Keyless key) := by
  have hlen := length_flat entries
  have hle := length_keys_insertAll_le entries map
  unfold lhmset
  rw [if_neg (by omega)]
  refine yields_edit hr fun desc op e hsize => ?_
  rw [yields_bind]
  refine (yields_lhmsetLoop entries e hn).mono fun created s' h' => ?_
  obtain ⟨rfl, e'⟩ := h'
  rw [yields_bind]
  refine (yields_finalize_map e' ?_ (by omega)).mono fun _ s'' h'' => ?_
  · rw [hsize, sum64_of_fits (by omega) (by omega)]
    omega
  · rw [yields_pure]
    exact ⟨rfl, h''⟩

theorem eraseAll_cons_of_mem {fields : List Bytes} (hm : f ∈ map) :
    LocalityCommand.eraseAll (f :: fields) map =
      ((LocalityCommand.eraseAll fields (map.erase f)).1 + 1,
        (LocalityCommand.eraseAll fields (map.erase f)).2) := by
  rw [LocalityCommand.eraseAll, if_pos hm]

theorem eraseAll_cons_of_notMem {fields : List Bytes} (hm : f ∉ map) :
    LocalityCommand.eraseAll (f :: fields) map = LocalityCommand.eraseAll fields map := by
  have he : map.erase f = map := AList.ext (List.kerase_of_notMem_keys hm)
  rw [LocalityCommand.eraseAll, if_neg hm, he, Int.add_zero]

/-- As many fields are gone as were there. -/
theorem length_keys_eraseAll (fields : List Bytes) (map : LocalityMap) :
    ((LocalityCommand.eraseAll fields map).2.keys.length : Int) =
      map.keys.length - (LocalityCommand.eraseAll fields map).1 := by
  induction fields generalizing map with
  | nil => simp [LocalityCommand.eraseAll]
  | cons f fields ih =>
    by_cases hm : f ∈ map
    · have hi := ih (map.erase f)
      have he := length_keys_erase hm
      rw [eraseAll_cons_of_mem hm]
      dsimp only
      omega
    · rw [eraseAll_cons_of_notMem hm]
      exact ih map

theorem eraseAll_nonneg (fields : List Bytes) (map : LocalityMap) :
    0 ≤ (LocalityCommand.eraseAll fields map).1 := by
  induction fields generalizing map with
  | nil => exact Int.le_refl 0
  | cons f fields ih =>
    have hi := ih (map.erase f)
    unfold LocalityCommand.eraseAll
    dsimp only
    split <;> omega

theorem yields_lhdelLoop (fields : List Bytes) {s : StagingArea} {map : LocalityMap}
    (e : Editing w key desc op map s) (hn : ∀ f ∈ fields, w.field f) :
    Yields (lhdelLoop op fields) s
      (fun removed s' => removed = (LocalityCommand.eraseAll fields map).1 ∧
        Editing w key desc op (LocalityCommand.eraseAll fields map).2 s') (Keyless key) := by
  induction fields generalizing s map with
  | nil => exact ⟨rfl, e⟩
  | cons f rest ih =>
    have hf := hn f List.mem_cons_self
    have hrest : ∀ g ∈ rest, w.field g := fun g hg => hn g (List.mem_cons_of_mem _ hg)
    unfold lhdelLoop
    rw [yields_bind]
    refine yields_getAndDeleteLocalityIndex e.opened (w.field_ne f hf) (fun hint hl _ => ?_)
      fun hl => ?_
    · rw [e.mapped.index f, Option.map_eq_some_iff] at hl
      obtain ⟨⟨h, v⟩, hm, rfl⟩ := hl
      have hh := (e.mapped.names f h v hm).2
      have hmem : f ∈ map := AList.lookup_isSome.mp (by rw [hm]; rfl)
      have hd : dataKey key h f ∈ (s.delIn (.localityIndex key f)).store := by
        refine AList.mem_erase.mpr ⟨index_ne_data.symm, AList.lookup_isSome.mp ?_⟩
        rw [e.mapped.lookup_data hm]
        rfl
      dsimp only
      rw [yields_bind]
      refine yields_deleteLocalityField e.opened (w.hint_ne h hh) hd fun _ => ?_
      rw [assertThat_true, pure_bind, yields_bind]
      have e' : Editing w key desc op (map.erase f)
          ((s.delIn (.localityIndex key f)).delIn (dataKey key h f)) := by
        refine ⟨e.opened, ?_, (e.mapped.erase hm).congr (fun k _ _ => ?_) fun _ => rfl⟩
        · show ((s.store.erase _).erase _).lookup _ = _
          rw [AList.lookup_erase_ne (ne_descriptor rfl), AList.lookup_erase_ne (ne_descriptor rfl)]
          exact e.descriptor
        · show ((s.store.erase _).erase _).lookup _ = ((s.store.erase _).erase _).lookup _
          rw [AList.erase_erase]
      refine (ih e' hrest).mono fun removed s' h' => ?_
      obtain ⟨rfl, e''⟩ := h'
      rw [yields_pure, eraseAll_cons_of_mem hmem]
      exact ⟨rfl, e''⟩
    · have hm : f ∉ map := by
        rw [e.mapped.index f, Option.map_eq_none_iff] at hl
        exact AList.lookup_eq_none.mp hl
      dsimp only
      rw [yields_bind, eraseAll_cons_of_notMem hm]
      refine (ih e hrest).mono fun removed s' h' => ?_
      obtain ⟨rfl, e'⟩ := h'
      rw [yields_pure]
      exact ⟨Int.add_zero _, e'⟩

theorem yields_lhdel (hr : RepresentsMap w s.store key map) {fields : List Bytes}
    (hn : ∀ f ∈ fields, w.field f) (hlt : map.keys.length < 2 ^ 63) :
    Yields (lhdel key fields) s
      (fun r s' => r = (.OK, (LocalityCommand.eraseAll fields map).1) ∧
        RepresentsMap w s'.store key (LocalityCommand.eraseAll fields map).2) (Keyless key) := by
  have hlen := length_keys_eraseAll fields map
  have hpos := eraseAll_nonneg fields map
  unfold lhdel
  refine yields_edit hr fun desc op e hsize => ?_
  rw [yields_bind]
  refine (yields_lhdelLoop fields e hn).mono fun removed s' h' => ?_
  obtain ⟨rfl, e'⟩ := h'
  rw [yields_bind]
  refine (yields_finalize_map e' ?_ (by omega)).mono fun _ s'' h'' => ?_
  · rw [hsize, sum64_of_fits (by omega) (by omega)]
    omega
  · rw [yields_pure]
    exact ⟨rfl, h''⟩

theorem yields_assertKeyType (hr : RepresentsMap w s.store key map) {fault : Fault → Prop}
    {post : Bool → StagingArea → Prop} (hp : post true s) :
    Yields (assertKeyType key .kLocalityHash) s post fault := by
  unfold assertKeyType getKeyDescriptor
  rw [yields_bind, yields_bind, yields_lookup]
  rcases hr with ⟨-, hn⟩ | ⟨-, -, bytes, d, hl, hd, ht, -⟩
  · have hnone : s.store.lookup (.descriptor key) = none :=
      AList.lookup_eq_none.mpr fun hk => hn _ hk rfl
    rw [hnone]
    exact hp
  · rw [hl]
    dsimp only
    rw [hd, throwing_ok, yields_pure, yields_pure, decide_eq_true ht, Bool.or_true]
    exact hp

theorem yields_lhlocdel (hr : RepresentsMap w s.store key map) (hf : w.field f) (hh : w.hint h)
    (hlt : map.keys.length < 2 ^ 63) :
    Yields (lhlocdel key f h) s
      (fun r s' => replyWith r Formatter.integer = ((LocalityCommand.lhlocdel f h).answer map).1 ∧
        RepresentsMap w s'.store key ((LocalityCommand.lhlocdel f h).answer map).2)
      (Keyless key) := by
  unfold lhlocdel LocalityCommand.answer
  rw [yields_bind]
  refine yields_assertKeyType hr ?_
  rw [Bool.not_true, if_neg nofun, yields_bind]
  refine yields_localityFieldKey (w.hint_ne h hh) fun _ => ?_
  rw [yields_bind, yields_keyExists]
  by_cases hm : dataKey key h f ∈ s.store
  · have hmap := (hr.mapped.mem_data_iff hf hh).mp hm
    have hmem : f ∈ map := by
      rw [← AList.lookup_isSome, ← Option.isSome_map, hmap]
      rfl
    have herase : LocalityCommand.eraseAll [f] map = (1, map.erase f) := by
      rw [eraseAll_cons_of_mem hmem]
      rfl
    rw [AList.lookup_isSome.mpr hm, if_pos rfl, yields_bind]
    have hfields : ∀ f' ∈ [f], w.field f' := by simpa using hf
    refine (yields_lhdel hr hfields hlt).mono fun r s' h' => ?_
    obtain ⟨rfl, hr'⟩ := h'
    rw [herase] at hr' ⊢
    dsimp only
    rw [decide_eq_true rfl, assertThat_true, pure_bind, yields_pure]
    simp only [if_pos hmap]
    exact ⟨rfl, hr'⟩
  · have hmap : ¬ (map.lookup f).map Prod.fst = some h :=
      fun hc => hm ((hr.mapped.mem_data_iff hf hh).mpr hc)
    rw [AList.lookup_eq_none.mpr hm, Option.isSome_none, if_neg nofun, yields_pure]
    simp only [if_neg hmap]
    exact ⟨rfl, hr⟩

theorem found_of_lookup (hm : map.lookup f = some (h, v)) :
    LocalityCommand.found f map = Formatter.string v := by
  unfold LocalityCommand.found
  rw [hm]
  rfl

/-- A field is found by its index, whatever the hint that was tried before. -/
theorem yields_lhget_slow (hr : RepresentsMap w s.store key map) (hf : w.field f)
    (hh : h ≠ [] → (map.lookup f).map Prod.fst ≠ some h) :
    Yields (do
      match ← get (← throwing (localityIndexKey key f)) with
      | none => return (Status.NotFound, [])
      | some correctHint =>
        if !h.isEmpty then assertThat (h ≠ correctHint) "hint != correctHint"
        match ← get (← throwing (localityFieldKey key correctHint f)) with
        | some value => return (.OK, value)
        | none => throw (.thrown "NotFound: ")) s
      (fun r s' => replyOrNull r Formatter.string = LocalityCommand.found f map ∧ s' = s)
      (Keyless key) := by
  rw [yields_bind]
  refine yields_localityIndexKey (w.field_ne f hf) fun _ => ?_
  rw [yields_bind, yields_lookup, hr.mapped.index f]
  rcases hm : map.lookup f with _ | ⟨correctHint, value⟩
  · have hnone : LocalityCommand.found f map = Formatter.null := by
      unfold LocalityCommand.found
      rw [hm]
      rfl
    rw [hnone]
    exact ⟨rfl, rfl⟩
  · rw [hm] at hh
    have hsome := found_of_lookup hm
    have hcorrect := (hr.mapped.names f correctHint value hm).2
    have hlast : Yields (do
        match ← get (← throwing (localityFieldKey key correctHint f)) with
        | some value => return (Status.OK, value)
        | none => throw (.thrown "NotFound: ")) s
        (fun r s' => replyOrNull r Formatter.string = LocalityCommand.found f map ∧ s' = s)
        (Keyless key) := by
      rw [yields_bind]
      refine yields_localityFieldKey (w.hint_ne _ hcorrect) fun _ => ?_
      rw [yields_bind, yields_lookup, hr.mapped.lookup_data hm, hsome]
      exact ⟨rfl, rfl⟩
    dsimp only [Option.map_some]
    cases h with
    | nil => exact hlast
    | cons c h =>
      have hne : decide (c :: h ≠ correctHint) = true :=
        decide_eq_true fun he => hh nofun (congrArg some he.symm)
      have hempty : (!(c :: h).isEmpty) = true := rfl
      rw [if_pos hempty, hne, assertThat_true, pure_bind]
      exact hlast

theorem yields_lhget (hr : RepresentsMap w s.store key map) (hf : w.field f)
    (hh : h ≠ [] → w.hint h) :
    Yields (lhget key f h) s
      (fun r s' => replyOrNull r Formatter.string = LocalityCommand.found f map ∧ s' = s)
      (Keyless key) := by
  unfold lhget
  rw [yields_bind]
  refine yields_assertKeyType hr ?_
  rw [Bool.not_true, if_neg nofun]
  cases h with
  | nil => exact yields_lhget_slow (h := []) hr hf fun hne => absurd rfl hne
  | cons c h =>
    have hhint := hh nofun
    dsimp only [List.isEmpty_cons]
    rw [if_neg nofun, yields_bind]
    refine yields_localityFieldKey (by exact nofun) fun _ => ?_
    rw [yields_bind, yields_lookup]
    rcases hl : s.store.lookup (dataKey key (c :: h) f) with _ | value
    · refine yields_lhget_slow (h := c :: h) hr hf fun _ hm => ?_
      have hmem := (hr.mapped.mem_data_iff hf hhint).mpr hm
      exact AList.lookup_eq_none.mp hl hmem
    · have hm := (hr.mapped.data_iff hf hhint).mp hl
      rw [found_of_lookup hm]
      exact ⟨rfl, rfl⟩

theorem yields_lhlen (hr : RepresentsMap w s.store key map) {fault : Fault → Prop} :
    Yields (lhlen key) s (fun r s' => r = (.OK, (map.keys.length : Int)) ∧ s' = s) fault := by
  unfold lhlen sizeOfType getKeyDescriptor
  rw [yields_bind, yields_bind, yields_lookup]
  rcases hr with ⟨hz, hn⟩ | ⟨-, -, bytes, d, hl, hd, ht, hsz⟩
  · have hnone : s.store.lookup (.descriptor key) = none :=
      AList.lookup_eq_none.mpr fun hk => hn _ hk rfl
    rw [hnone, hz]
    exact ⟨rfl, rfl⟩
  · rw [hl]
    dsimp only
    rw [hd, throwing_ok, yields_pure, if_neg (fun h => h.2 ht), yields_pure, hsz]
    exact ⟨rfl, rfl⟩

theorem yields_delLocalities (hr : RepresentsMap w s.store key map) :
    Yields (delKeys [key]) s
      (fun r s' => r = (if map.keys = [] then 0 else 1) ∧ RepresentsMap w s'.store key ∅)
      (Keyless key) := by
  unfold delKeys getKeyDescriptor
  rw [yields_bind, yields_bind, yields_lookup]
  rcases hr with ⟨hz, hn⟩ | ⟨hne, hm, bytes, d, hl, hd, ht, hsz⟩
  · have hnone : s.store.lookup (.descriptor key) = none :=
      AList.lookup_eq_none.mpr fun hk => hn _ hk rfl
    rw [hnone, if_pos hz]
    exact ⟨rfl, .inl ⟨rfl, hn⟩⟩
  · have hempty : d.empty = false := by
      unfold KeyDescriptor.empty
      rw [ht]
      rfl
    have hcount := hm.localities.fields_eq
    have hindices := hm.localities.indices_eq
    rw [hl]
    dsimp only
    rw [hd, throwing_ok, yields_pure, hempty, if_neg Bool.false_ne_true, yields_bind]
    unfold removeContents
    rw [ht]
    dsimp only
    cases key with
    | nil => exact ⟨rfl, rfl⟩
    | cons c key =>
      have hsome : (!List.isEmpty (c :: key)) = true := rfl
      rw [hsome, assertThat_true, pure_bind]
      unfold removeCounted
      rw [yields_bind, yields_bind]
      refine yields_removeAll fun s1 hs1 _ => ?_
      rw [if_neg (by omega), yields_pure, yields_bind]
      refine yields_removeAll fun s2 hs2 _ => ?_
      have hi1 : count s1.store (isLocalityIndex (c :: key)) =
          count s.store (isLocalityIndex (c :: key)) := by
        apply count_congr
        intro k hk
        rw [mem_of_removed hs1, and_iff_right]
        cases k <;> first | rfl | cases hk
      rw [hi1, if_neg (by omega), yields_pure, yields_bind, yields_del, yields_bind]
      unfold delKeys
      rw [yields_pure, yields_pure, if_neg hne]
      have hl2 : Localities s2.store (c :: key) 0 0 := by
        refine ⟨(hm.localities.only.removed hs1).removed hs2, ?_, ?_⟩
        · have h0 := count_eq_zero.mp (count_removed hs1)
          have hz : count s2.store (isLocalityField (c :: key)) = 0 :=
            count_eq_zero.mpr fun k hk => h0 k ((mem_of_removed hs2).mp hk).2
          rw [hz]
          rfl
        · rw [count_removed hs2]
          rfl
      have hdata : Data s2.store (c :: key) { d with sz := 0 } := hl2.data ht
      exact ⟨rfl, .inl ⟨rfl, hdata.erased rfl⟩⟩

end

/-! ## Batches of commands -/

namespace LocalityCommand

theorem command_ne (c : LocalityCommand) : c.command ≠ .INVALID ∧ c.command ≠ .TX_READWRITE := by
  cases c <;> exact ⟨nofun, nofun⟩

theorem type_of_row (c : LocalityCommand) :
    ∀ row ∈ redisCmdMap, row.2.1 = c.command → row.2.2 = c.type := by
  cases c <;> simp only [command, type] <;> decide +kernel

/-- What the dispatcher makes of a command. -/
def run (key : Bytes) : LocalityCommand → StagingM Bytes
  | .lhset field hint value => dispatchLHSET key field hint value
  | .lhmset first rest => do 
    return Formatter.fromStatus (← StateMachine.lhmset key (flat (first :: rest)))
  | .lhdel field fields => dispatchLHDEL key (field :: fields)
  | .lhlocdel field hint => do
    return replyWith (← StateMachine.lhlocdel key field hint) Formatter.integer
  | .lhget field hint => dispatchLHGET key field (hint.getD [])
  | .lhlen => do return replyWith (← StateMachine.lhlen key) Formatter.integer
  | .del => do return Formatter.integer (← delKeys [key])

theorem dispatchCommand_eq_run (doubles : Doubles) {key : Bytes} {c : LocalityCommand}
    {request : RedisRequest} (h : c.Spells key request) (hw : c.type = .WRITE) :
    dispatchCommand doubles request = c.run key := by
  obtain ⟨hc, htail⟩ := h
  unfold dispatchCommand
  rw [hc, htail]
  cases c with
  | lhset field hint value => rfl
  | lhmset first rest =>
    have hlen := length_flat (first :: rest)
    rw [List.length_cons] at hlen
    show (if _ then _ else _) = _
    rw [if_neg (by omega)]
    rfl
  | lhdel field fields => rfl
  | lhlocdel field hint => rfl
  | lhget field hint => cases hw
  | lhlen => cases hw
  | del => rfl

theorem dispatchRead_eq_run (others : StagingArea → RedisRequest → Except Fault Bytes)
    {key : Bytes} {c : LocalityCommand} {request : RedisRequest} (h : c.Spells key request)
    (hr : c.type = .READ) (s : StagingArea) :
    dispatchRead others s request = readFrom s (c.run key) := by
  obtain ⟨hc, htail⟩ := h
  unfold dispatchRead
  rw [hc, htail]
  cases c with
  | lhget field hint => cases hint <;> rfl
  | lhlen => rfl
  | lhset | lhmset | lhdel | lhlocdel | del => cases hr

end LocalityCommand

/-- What the store holds once some of the commands are still to come. A machine has no room
for more fields than a size can count. -/
def PendingMap (w : Vocabulary) (key : Bytes) (rest : List LocalityCommand) (map : LocalityMap)
    (s : StagingArea) : Prop :=
  RepresentsMap w s.store key map ∧ (∀ c ∈ rest, c.Names w) ∧
    map.keys.length + (rest.map LocalityCommand.adds).sum < 2 ^ 63

/-- A command that only reads leaves everything as it is. -/
theorem LocalityCommand.answer_of_read {c : LocalityCommand} (h : c.type = .READ)
    (map : LocalityMap) : (c.answer map).2 = map := by
  cases c <;> first | rfl | cases h

section

variable {w : Vocabulary} {key : Bytes}

/-- Each command answers as the map does. -/
theorem yields_runLocality (c : LocalityCommand) (rest : List LocalityCommand) (map : LocalityMap)
    (s : StagingArea) (h : PendingMap w key (c :: rest) map s) :
    Yields (c.run key) s
      (fun reply s' => reply = (c.answer map).1 ∧ PendingMap w key rest (c.answer map).2 s')
      (Keyless key) := by
  obtain ⟨hr, hnames, hsum⟩ := h
  have hn := hnames c List.mem_cons_self
  have hrest : ∀ c' ∈ rest, c'.Names w := fun c' hc' => hnames c' (List.mem_cons_of_mem _ hc')
  rw [List.map_cons, List.sum_cons] at hsum
  cases c <;> simp only [LocalityCommand.adds, LocalityCommand.Names] at hsum hn <;>
    unfold LocalityCommand.run
  case lhset field hint value =>
    have hle := length_keys_insert_le map field (hint, value)
    unfold dispatchLHSET
    rw [yields_bind]
    refine (yields_lhset hr hn.1 hn.2 (by omega)).mono fun r s' h => ?_
    obtain ⟨rfl, hr'⟩ := h
    exact ⟨rfl, hr', hrest, by simp only [LocalityCommand.answer]; omega⟩
  case lhmset first more =>
    have hle := length_keys_insertAll_le (first :: more) map
    rw [List.length_cons] at hle
    rw [yields_bind]
    refine (yields_lhmset hr hn (by rw [List.length_cons]; omega)).mono fun r s' h => ?_
    obtain ⟨rfl, hr'⟩ := h
    exact ⟨rfl, hr', hrest, by simp only [LocalityCommand.answer]; omega⟩
  case lhdel field fields =>
    have hlen := length_keys_eraseAll (field :: fields) map
    have hpos := eraseAll_nonneg (field :: fields) map
    unfold dispatchLHDEL
    rw [yields_bind]
    refine (yields_lhdel hr hn (by omega)).mono fun r s' h => ?_
    obtain ⟨rfl, hr'⟩ := h
    exact ⟨rfl, hr', hrest, by simp only [LocalityCommand.answer]; omega⟩
  case lhlocdel field hint =>
    rw [yields_bind]
    refine (yields_lhlocdel hr hn.1 hn.2 (by omega)).mono fun r s' h => ?_
    refine ⟨h.1, h.2, hrest, ?_⟩
    have hle := length_erase_le map field
    simp only [LocalityCommand.answer]
    split <;> dsimp only <;> omega
  case lhget field hint =>
    have hh : hint.getD [] ≠ [] → w.hint (hint.getD []) := by
      intro hne
      cases hint with
      | none => exact absurd rfl hne
      | some h => exact hn.2 h rfl hne
    unfold dispatchLHGET
    rw [yields_bind]
    refine (yields_lhget hr hn.1 hh).mono fun r s' h => ?_
    obtain ⟨h1, rfl⟩ := h
    exact ⟨h1, hr, hrest, by simp only [LocalityCommand.answer]; omega⟩
  case lhlen =>
    rw [yields_bind]
    refine (yields_lhlen hr).mono fun r s' h => ?_
    obtain ⟨rfl, rfl⟩ := h
    exact ⟨rfl, hr, hrest, by simp only [LocalityCommand.answer]; omega⟩
  case del =>
    rw [yields_bind]
    refine (yields_delLocalities hr).mono fun r s' h => ?_
    obtain ⟨rfl, hr'⟩ := h
    refine ⟨rfl, hr', hrest, ?_⟩
    show 0 + _ < _
    omega

variable (doubles : Doubles) (others : StagingArea → RedisRequest → Except Fault Bytes)

theorem yields_localityCommand (request : RedisRequest) (c : LocalityCommand)
    (rest : List LocalityCommand) (map : LocalityMap) (s : StagingArea)
    (hspell : c.Spells key request) (h : PendingMap w key (c :: rest) map s) :
    Yields (dispatchOne doubles (dispatchRead others) request) s
      (fun reply s' => reply = (c.answer map).1 ∧ PendingMap w key rest (c.answer map).2 s')
      (Keyless key) := by
  have ht := getCommandType_of_table hspell.1 c.command_ne.1 c.type_of_row
  have hy := yields_runLocality c rest map s h
  by_cases hc : c.type = .READ
  · have hkeep : PendingMap w key rest (c.answer map).2 s := by
      rw [LocalityCommand.answer_of_read hc]
      obtain ⟨hr, hnames, hsum⟩ := h
      rw [List.map_cons, List.sum_cons] at hsum
      exact ⟨hr, fun c' hc' => hnames c' (List.mem_cons_of_mem _ hc'), by omega⟩
    unfold Yields
    rw [dispatchOne_of_read doubles _ (by rw [ht, hc]; nofun),
      LocalityCommand.dispatchRead_eq_run others hspell hc]
    unfold readFrom
    rcases hrun : (c.run key).run s with e | ⟨r, s'⟩
    · exact hy.of_error hrun
    · exact ⟨(hy.of_ok hrun).1, hkeep⟩
  · have hw : c.type = .WRITE := by
      cases c <;> first | rfl | exact absurd rfl hc
    rw [dispatchOne_of_write doubles _ (ht.trans hw) (by rw [hspell.1]; exact c.command_ne.2),
      LocalityCommand.dispatchCommand_eq_run doubles hspell hw]
    exact hy

/-- Commands on the locality hash of a key that does not exist yet, in batches of any size:
the replies are those of a map, whatever hints LHGET is given, and the index of a field holds
a hint just when the only data of that field is under that hint. Nothing fails, unless the
key is empty, which no locator takes. -/
theorem a_locality_hash_is_a_finite_map (w : Vocabulary) (key : Bytes) (mode : Mode) (m : Machine)
    (hm : mode.Suits m) (hn : ∀ k ∈ m.store, k.owner ≠ some key) (txs : List Transaction)
    (batches : List (List LocalityCommand))
    (hs : List.Forall₂ (SpellsBatch fun request c => c.Spells key request) txs batches)
    (hnames : ∀ c ∈ batches.flatten, c.Names w)
    (hsize : (batches.flatten.map LocalityCommand.adds).sum < 2 ^ 63) :
    (∃ m', applyBatches doubles (dispatchRead others) mode m txs =
        .ok ((answerBatches LocalityCommand.answer txs batches ∅).1, m') ∧
      RepresentsMap w m'.store key (answerBatches LocalityCommand.answer txs batches ∅).2 ∧
      ∀ f h, w.field f → w.hint h →
        (m'.store.lookup (.localityIndex key f) = some h ↔ dataKey key h f ∈ m'.store ∧
          ∀ h', w.hint h' → dataKey key h' f ∈ m'.store → h' = h)) ∨
    key = [] ∧ applyBatches doubles (dispatchRead others) mode m txs =
      .error (.assertion "!redisKey.empty()") := by
  have hstart : PendingMap w key batches.flatten ∅ (stage m) := by
    refine ⟨.inl ⟨rfl, hn⟩, hnames, ?_⟩
    show 0 + _ < _
    omega
  have hcommit : ∀ rest map s s', PendingMap w key rest map s →
      s'.expirationCache = s.expirationCache →
      (∀ k ≠ .lastApplied, s'.store.lookup k = s.store.lookup k) → s'.batch = ∅ →
      s'.revisionTracker = ∅ → PendingMap w key rest map s' := by
    intro rest map s s' h _ hstore _ _
    refine ⟨h.1.congr fun k ho => hstore k ?_, h.2⟩
    rintro rfl
    cases ho
  rcases applyBatches_answers doubles (dispatchRead others) (yields_localityCommand doubles others)
    hcommit hm hs hstart with ⟨m', h1, hr, -⟩ | ⟨e, ⟨hk, rfl⟩, h1⟩
  · exact .inl ⟨m', h1, hr, fun f h hf hh => hr.mapped.index_iff hf hh⟩
  · exact .inr ⟨hk, h1⟩

end

theorem a_field_that_moved_is_found_with_its_old_hint :
    let m : Machine := { store := ∅, expirationCache := [], lastApplied := 0 }
    ∃ tx tx' : Transaction, tx.requests = [[ascii "LHMSET", ascii "k", ascii "f", ascii "a", ascii "1",
        ascii "f", ascii "b", ascii "2"]] ∧
      tx'.requests = [[ascii "LHGET", ascii "k", ascii "f", ascii "a"]] ∧
      ∃ m', applyBatches wholeDoubles (dispatchRead readsNothing) .standalone m [tx, tx'] =
        .ok ([ascii "+OK\r\n", ascii "$1\r\n2\r\n"], m') := by
  intro m
  let w : Vocabulary := {
    hint := fun h => h = ascii "a" ∨ h = ascii "b"
    field := fun f => f = ascii "f"
    hint_ne := by
      rintro h (rfl | rfl) <;> decide
    field_ne := by
      rintro f rfl
      decide
    apart := by
      rintro h f h' f' (rfl | rfl) rfl (rfl | rfl) rfl <;> decide }
  have hnames : ∀ c ∈ [LocalityCommand.lhmset (ascii "f", ascii "a", ascii "1")
      [(ascii "f", ascii "b", ascii "2")], .lhget (ascii "f") (some (ascii "a"))], c.Names w := by
    intro c hc
    rcases List.mem_pair.mp hc with rfl | rfl
    · intro e he
      rcases List.mem_pair.mp he with rfl | rfl
      · exact ⟨rfl, .inl rfl⟩
      · exact ⟨rfl, .inr rfl⟩
    · refine ⟨rfl, fun h hh _ => ?_⟩
      cases hh
      exact .inl rfl
  let lhmset : RedisRequest := [ascii "LHMSET", ascii "k", ascii "f", ascii "a", ascii "1",
    ascii "f", ascii "b", ascii "2"]
  let lhget : RedisRequest := [ascii "LHGET", ascii "k", ascii "f", ascii "a"]
  obtain ⟨hlhmset, hlhget⟩ :
      LocalityCommand.Spells (ascii "k") lhmset (.lhmset (ascii "f", ascii "a", ascii "1")
        [(ascii "f", ascii "b", ascii "2")]) ∧
      LocalityCommand.Spells (ascii "k") lhget (.lhget (ascii "f") (some (ascii "a"))) := by
    decide +kernel
  let tx := Transaction.ofRequests [lhmset] true (by decide +kernel)
  let tx' := Transaction.ofRequests [lhget] true (by decide +kernel)
  have h := a_locality_hash_is_a_finite_map wholeDoubles readsNothing w (ascii "k") .standalone m rfl
    (fun k hk => absurd hk (AList.notMem_empty k)) [tx, tx']
    [[.lhmset (ascii "f", ascii "a", ascii "1") [(ascii "f", ascii "b", ascii "2")]],
      [.lhget (ascii "f") (some (ascii "a"))]]
    (.cons ⟨List.cons_ne_nil _ _, .cons hlhmset .nil⟩
      (.cons ⟨List.cons_ne_nil _ _, .cons hlhget .nil⟩ .nil))
    hnames (by decide)
  rcases h with ⟨m', h, -⟩ | ⟨hk, -⟩
  · exact ⟨tx, tx', rfl, rfl, m', h⟩
  · exact absurd hk (by decide)

end quarkdb
