-- The commands on strings, hashes, sets and versioned hashes keep the descriptors
-- true.
import QuarkDB.Operations

namespace quarkdb

open Endian StateMachine StagingArea Tally Outcome

/-! ## Operations that count fields -/

/-- An operation on a key whose fields are counted: by now there are `size` of them. -/
structure Counting (key : Bytes) (desc : Option Bytes) (op : WriteOperation) (n : Nat) (size : Int)
    (s : StagingArea) : Prop where
  opened : Opened key op.keyinfo.keyType desc op
  plain : Plain op.keyinfo.keyType
  busy : Busy key desc n s
  data : Data s.store key { op.keyinfo with sz := size }

section

variable {key : Bytes} {type : KeyType} {desc : Option Bytes} {n : Nat} {s : StagingArea}
  {op : WriteOperation} {size : Int}

theorem Plain.layout {type : KeyType} (h : Plain type) : KeyDescriptor.layout type ≠ .none := by
  rcases h with rfl | rfl | rfl <;> nofun

theorem Counting.start (hi : Inv n s) (hp : Plain type)
    (ho : Opened key type (s.store.lookup (.descriptor key)) op) :
    Counting key (s.store.lookup (.descriptor key)) op n op.keySize s := by
  have ht := ho.keyType_eq
  subst ht
  exact ⟨ho, hp, hi.busy key, ho.data hp.layout rfl (hi.ok key)⟩

theorem Counting.size_bounds (h : Counting key desc op n size s) : 0 ≤ size ∧ size + n < 2 ^ 63 := by
  have hs := (sized_plain (by exact h.plain)).mp h.data.sized
  have hr := h.busy.room
  have hc := count_le s.store (isField op.keyinfo.keyType key)
  dsimp only at hs
  omega

theorem Counting.writeField (h : Counting key desc op (n + 1) size s) {field value : Bytes}
    {post : Unit → StagingArea → Prop}
    (hpost : ∀ s', s' = s.putIn (.field op.keyinfo.keyType key field) value →
      Counting key desc op n
        (size + if .field op.keyinfo.keyType key field ∈ s.store then 0 else 1) s' → post () s') :
    Does (op.writeField field value) s post := by
  rw [WriteOperation.writeField_eq h.opened.valid h.plain.bearsFields, h.opened.redisKey_eq,
    does_put]
  apply hpost _ rfl
  exact ⟨h.opened, h.plain, h.busy.putIn rfl rfl value, h.data.insert_plain h.plain field value⟩

theorem Counting.fieldExists (h : Counting key desc op n size s) {field : Bytes}
    {post : Bool → StagingArea → Prop}
    (hpost : post (decide (.field op.keyinfo.keyType key field ∈ s.store)) s) :
    Does (op.fieldExists field) s post := by
  rw [WriteOperation.fieldExists_eq h.opened.valid h.plain.bearsFields, h.opened.redisKey_eq,
    does_keyExists]
  convert hpost using 1
  rw [Bool.eq_iff_iff, AList.lookup_isSome, decide_eq_true_iff]

theorem Counting.deleteField (h : Counting key desc op n size s) {field : Bytes}
    {post : Bool → StagingArea → Prop}
    (hfound : .field op.keyinfo.keyType key field ∈ s.store → ∀ s',
      s' = s.delIn (.field op.keyinfo.keyType key field) →
      Counting key desc op n (size - 1) s' → post true s')
    (hnot : .field op.keyinfo.keyType key field ∉ s.store → post false s) :
    Does (op.deleteField field) s post := by
  rw [WriteOperation.deleteField_eq h.opened.valid h.plain.bearsFields, h.opened.redisKey_eq]
  refine does_deleteKey (fun hm => hfound hm _ rfl ?_) hnot
  exact ⟨h.opened, h.plain, h.busy.delIn rfl rfl, h.data.erase_plain h.plain hm⟩

/-- The new size must be the one that was counted; versioned hashes always write it. -/
theorem Counting.finalize (h : Counting key desc op (n + 1) size s) {newsize : Int} {force : Bool}
    (hn : newsize = size) (hf : op.keyinfo.keyType = .kVersionedHash → force = true) :
    Does (op.finalize newsize force) s fun _ s' => Inv n s' ∧
      ∀ key' ≠ key, s'.store.lookup (.descriptor key') = s.store.lookup (.descriptor key') := by
  subst hn
  refine does_finalize h.opened.redisKey_eq h.opened.valid h.busy h.data ?_ ?_ ?_
  · have := h.size_bounds
    omega
  · intro _ _ bytes hb
    exact h.opened.known bytes hb
  · intro hz hforce hnone
    refine ⟨hz.symm.trans (h.opened.fresh hnone).1, fun ht => ?_⟩
    rw [hf ht] at hforce
    cases hforce

theorem sum64_of_fits {a b : Int} (h1 : -2 ^ 63 ≤ a + b) (h2 : a + b < 2 ^ 63) :
    sum64 a b = a + b := signed_of_fits h1 h2

/-! ## Strings -/

theorem does_set (hi : Inv (n + 2) s) {key value : Bytes} (hlen : value.length < 2 ^ 63)
    (hv : value ≠ [] ∨ ∃ bytes d, s.store.lookup (.descriptor key) = some bytes ∧
      KeyDescriptor.ofBytes bytes = .ok d ∧ d.keyType ≠ .kString) :
    Does (StateMachine.set key value) s fun _ s' => Inv n s' := by
  unfold StateMachine.set
  refine does_withOperation hi nofun (fun op ho hd => ?_) (hi.mono (by omega))
  have hne : value ≠ [] := by
    rcases hv with hv | ⟨bytes, d, hb, hd, ht⟩
    · exact hv
    · rw [ho.known bytes hb] at hd
      cases hd
      exact absurd ho.keyType_eq ht
  have hk : op.valueKey = .ok (.string key) := by
    unfold WriteOperation.valueKey
    rw [ho.keyType_eq, ho.redisKey_eq]
    rfl
  unfold WriteOperation.write
  rw [WriteOperation.assertWritable_valid ho.valid, hk, pure_bind, throwing_ok, pure_bind, does_bind,
    does_put, does_bind]
  have hb : Busy key (s.store.lookup (.descriptor key)) (n + 1) (s.putIn (.string key) value) :=
    (hi.busy key).putIn rfl rfl value
  refine (does_finalize ho.redisKey_eq ho.valid hb (hd.insert_string ho.keyType_eq hne) ?_ ?_ ?_).mono
    fun _ s' h => h.1
  · omega
  · intro _ _ bytes hb
    exact ho.known bytes hb
  · intro hz _ hnone
    rw [(ho.fresh hnone).1] at hz
    refine ⟨hz.symm, ?_⟩
    rw [ho.keyType_eq]
    nofun

/-! ## Hashes -/

/-- One more, unless the field was there: the counter does what the contents do. -/
theorem sum64_created {p : Prop} [Decidable p] (h0 : 0 ≤ size)
    (h1 : size + (if p then 0 else 1) < 2 ^ 63) :
    sum64 size (if (!decide p) = true then 1 else 0) = size + if p then 0 else 1 := by
  have he : (if (!decide p) = true then (1 : Int) else 0) = if p then 0 else 1 := by
    by_cases hp : p <;> simp [hp]
  rw [he]
  apply sum64_of_fits
  · split <;> omega
  · exact h1

theorem does_hset (hi : Inv (n + 2) s) (key field value : Bytes) :
    Does (hset key field value) s fun _ s' => Inv n s' := by
  unfold hset
  refine does_withOperation hi nofun (fun op ho _ => ?_) (hi.mono (by omega))
  have hc := Counting.start hi (.inl rfl) ho
  rw [does_bind]
  refine hc.fieldExists ?_
  rw [does_bind]
  refine hc.writeField fun s' _ hc' => ?_
  rw [does_bind]
  have hb := hc'.size_bounds
  refine (hc'.finalize ?_ ?_).mono fun _ s'' h => h.1
  · exact sum64_created hc.size_bounds.1 (by omega)
  · rw [ho.keyType_eq]
    nofun

theorem Counting.mono {m : Nat} (h : Counting key desc op n size s) (hm : m ≤ n) :
    Counting key desc op m size s :=
  { h with busy := h.busy.mono hm }

theorem does_hmsetLoop {s : StagingArea} {size : Int} {args : List Bytes}
    (hc : Counting key desc op (n + args.length) size s) :
    Does (hmsetLoop op size args) s fun newsize s' => Counting key desc op n newsize s' := by
  induction size, args using hmsetLoop.induct generalizing s with
  | case1 size field value rest ih =>
    unfold hmsetLoop
    rw [does_bind]
    refine hc.fieldExists ?_
    rw [does_bind]
    have hc1 : Counting key desc op (n + rest.length + 1) size s := hc.mono (by simp only [List.length_cons]; omega)
    refine hc1.writeField fun s' _ hc' => ?_
    have hb := hc'.size_bounds
    apply ih (decide (StoreKey.field op.keyinfo.keyType key field ∈ s.store))
    rw [sum64_created hc.size_bounds.1 (by omega)]
    exact hc'
  | case2 args size hne =>
    unfold hmsetLoop
    split
    · exact (hne _ _ _ rfl).elim
    · exact hc.mono (by omega)

theorem does_hmset {args : List Bytes} (hi : Inv (n + args.length + 1) s) (key : Bytes) :
    Does (hmset key args) s fun _ s' => Inv n s' := by
  unfold hmset
  split
  · exact ⟨by decide, by decide⟩
  refine does_withOperation hi nofun (fun op ho _ => ?_) (hi.mono (by omega))
  have hc := Counting.start hi (.inl rfl) ho
  rw [does_bind]
  refine (does_hmsetLoop (n := n + 1) (hc.mono (by omega))).mono fun newsize s' hc' => ?_
  rw [does_bind]
  refine (hc'.finalize rfl ?_).mono fun _ s'' h => h.1
  rw [ho.keyType_eq]
  nofun

theorem does_hsetnx (hi : Inv (n + 2) s) (key field value : Bytes) :
    Does (hsetnx key field value) s fun _ s' => Inv n s' := by
  unfold hsetnx
  refine does_withOperation hi nofun (fun op ho _ => ?_) (hi.mono (by omega))
  have hc := Counting.start hi (.inl rfl) ho
  have hh : op.keyinfo.keyType = .kVersionedHash → false = true := by
    rw [ho.keyType_eq]
    nofun
  rw [does_bind]
  refine hc.fieldExists ?_
  by_cases hm : .field op.keyinfo.keyType key field ∈ s.store
  · have hb := hc.size_bounds
    simp only [hm, decide_true, Bool.not_true, Bool.false_eq_true, if_false]
    rw [does_bind]
    refine ((hc.mono (by omega)).finalize ?_ hh).mono fun _ s'' h => h.1
    rw [sum64_of_fits (by omega) (by omega), Int.add_zero]
  · have hb := hc.size_bounds
    simp only [hm, decide_false, Bool.not_false, if_true]
    rw [does_bind]
    refine hc.writeField fun s' _ hc' => ?_
    rw [if_neg hm] at hc'
    rw [does_bind]
    refine (hc'.finalize ?_ hh).mono fun _ s'' h => h.1
    exact sum64_of_fits (by omega) (by omega)

theorem Counting.getField (h : Counting key desc op n size s) {field : Bytes}
    {post : Option Bytes → StagingArea → Prop}
    (hpost : post (s.store.lookup (.field op.keyinfo.keyType key field)) s) :
    Does (op.getField field) s post := by
  rw [WriteOperation.getField_eq h.opened.valid h.plain.bearsFields, h.opened.redisKey_eq,
    does_get]
  exact hpost

theorem does_increment {ν : Type} (hi : Inv (n + 2) s) (parse : Bytes → Option ν)
    (readStart : Bytes → ν) (add : ν → ν → ν) (zero : ν) (toBytes : ν → Bytes)
    (malformedArg malformedValue : String) (key field incrby : Bytes) :
    Does (increment parse readStart add zero toBytes malformedArg malformedValue key field incrby) s
      fun _ s' => Inv n s' := by
  unfold increment
  split
  · exact hi.mono (by omega)
  refine does_withOperation hi nofun (fun op ho _ => ?_) (hi.mono (by omega))
  have hc := Counting.start hi (.inl rfl) ho
  have hh : op.keyinfo.keyType = .kVersionedHash → false = true := by
    rw [ho.keyType_eq]
    nofun
  rw [does_bind]
  refine hc.getField ?_
  dsimp only
  split
  · rw [does_bind]
    exact ((hc.mono (by omega)).finalize rfl hh).mono fun _ s'' h => h.1
  · rw [does_bind]
    refine hc.writeField fun s' _ hc' => ?_
    have hb := hc'.size_bounds
    rw [does_bind]
    refine (hc'.finalize ?_ hh).mono fun _ s'' h => h.1
    have he : (if (s.store.lookup (.field op.keyinfo.keyType key field)).isSome = true
        then (0 : Int) else 1) = if .field op.keyinfo.keyType key field ∈ s.store then 0 else 1 := by
      simp only [AList.lookup_isSome]
    rw [he]
    have h0 := hc.size_bounds
    refine sum64_of_fits ?_ (by omega)
    split <;> omega

theorem does_hincrby (hi : Inv (n + 2) s) (key field incrby : Bytes) :
    Does (hincrby key field incrby) s fun _ s' => Inv n s' :=
  does_increment hi _ _ _ _ _ _ _ key field incrby

theorem does_hincrbyfloat (hi : Inv (n + 2) s) (doubles : Doubles) (key field incrby : Bytes) :
    Does (hincrbyfloat doubles key field incrby) s fun _ s' => Inv n s' :=
  does_increment hi _ _ _ _ _ _ _ key field incrby

theorem does_deleteLoop (fields : List Bytes) {s : StagingArea} {size : Int}
    (hc : Counting key desc op n size s) :
    Does (deleteLoop op fields) s fun removed s' => Counting key desc op n (size - removed) s' := by
  induction fields generalizing s size with
  | nil =>
    show Counting key desc op n (size - 0) s
    rw [Int.sub_zero]
    exact hc
  | cons field rest ih =>
    unfold deleteLoop
    rw [does_bind]
    refine hc.deleteField (fun _ s' _ hc' => ?_) fun _ => ?_
    · rw [does_bind]
      refine (ih hc').mono fun removed s'' h => ?_
      rw [does_pure, if_pos rfl, show size - (removed + 1) = size - 1 - removed by omega]
      exact h
    · rw [does_bind]
      refine (ih hc).mono fun removed s'' h => ?_
      rw [does_pure, if_neg nofun, Int.add_zero]
      exact h

theorem does_deleteFields (hi : Inv (n + 1) s) (hp : Plain type) (ht : type ≠ .kVersionedHash)
    (key : Bytes) (fields : List Bytes) :
    Does (deleteFields type key fields) s fun _ s' => Inv n s' := by
  unfold deleteFields
  refine does_withOperation hi hp.layout (fun op ho _ => ?_) (hi.mono (by omega))
  have hc := Counting.start hi hp ho
  have hb := hc.size_bounds
  rw [does_bind]
  refine (does_deleteLoop fields hc).mono fun removed s' hc' => ?_
  have hb' := hc'.size_bounds
  rw [does_bind]
  refine (hc'.finalize ?_ ?_).mono fun _ s'' h => h.1
  · exact sum64_of_fits (by omega) (by omega)
  · rw [ho.keyType_eq]
    exact fun he => absurd he ht

/-! ## Sets -/

theorem does_saddLoop (elements : List Bytes) {s : StagingArea} {size : Int}
    (hc : Counting key desc op (n + elements.length) size s) :
    Does (saddLoop op elements) s fun added s' => Counting key desc op n (size + added) s' := by
  induction elements generalizing s size with
  | nil =>
    show Counting key desc op n (size + 0) s
    rw [Int.add_zero]
    exact hc
  | cons element rest ih =>
    unfold saddLoop
    rw [does_bind]
    refine hc.fieldExists ?_
    dsimp only
    have hc1 : Counting key desc op (n + rest.length + 1) size s := hc.mono (by simp only [List.length_cons]; omega)
    by_cases hm : .field op.keyinfo.keyType key element ∈ s.store
    · simp only [hm, decide_true, Bool.not_true, Bool.false_eq_true, if_false, if_true]
      rw [does_bind]
      refine (ih (hc1.mono (by omega))).mono fun added s' h => ?_
      rw [does_pure, Int.add_zero]
      exact h
    · simp only [hm, decide_false, Bool.not_false, Bool.false_eq_true, if_false, if_true]
      rw [does_bind]
      refine hc1.writeField fun s' _ hc' => ?_
      rw [if_neg hm] at hc'
      rw [does_bind]
      refine (ih hc').mono fun added s'' h => ?_
      rw [does_pure, show size + (added + 1) = size + 1 + added by omega]
      exact h

theorem does_sadd {elements : List Bytes} (hi : Inv (n + elements.length + 1) s) (key : Bytes) :
    Does (sadd key elements) s fun _ s' => Inv n s' := by
  unfold sadd
  refine does_withOperation hi nofun (fun op ho _ => ?_) (hi.mono (by omega))
  have hc := Counting.start hi (.inr (.inl rfl)) ho
  have h0 := hc.size_bounds
  rw [does_bind]
  refine (does_saddLoop (n := n + 1) elements (hc.mono (by omega))).mono fun added s' hc' => ?_
  have hb := hc'.size_bounds
  rw [does_bind]
  refine (hc'.finalize ?_ ?_).mono fun _ s'' h => h.1
  · exact sum64_of_fits (by omega) (by omega)
  · rw [ho.keyType_eq]
    nofun

/-- To finalize with the size that was read changes nothing. -/
theorem does_finalize_same (hi : Inv n s)
    (ho : Opened key type (s.store.lookup (.descriptor key)) op)
    (hl : KeyDescriptor.layout type ≠ .none) (ht : type ≠ .kVersionedHash) :
    Does (op.finalize op.keySize false) s fun _ s' => Inv n s' ∧
      ∀ k : StoreKey, s'.store.lookup k = s.store.lookup k := by
  have h0 : 0 ≤ op.keySize := (ho.data hl rfl (hi.ok key)).size_nonneg
  unfold WriteOperation.finalize
  rw [WriteOperation.assertWritable_valid ho.valid, pure_bind, if_neg (by omega)]
  split
  · rename_i hz
    have hn := ho.none_of_size_zero (hi.ok key) ht hz.1
    have hl : ∀ k : StoreKey, (s.delIn (.descriptor key)).store.lookup k = s.store.lookup k := by
      intro k
      show (s.store.erase (.descriptor key)).lookup k = s.store.lookup k
      by_cases he : k = .descriptor key
      · rw [he, AList.lookup_erase, hn]
      · exact AList.lookup_erase_ne he
    rw [does_del, ho.redisKey_eq]
    refine ⟨⟨fun key' => (hi.ok key').congr fun k _ => (hl k).symm, ?_⟩, hl⟩
    have h1 := hi.room
    have h2 := length_erase_le s.store (.descriptor key)
    show (s.store.erase (.descriptor key)).keys.length + n < 2 ^ 63
    omega
  · rw [if_neg (by unfold WriteOperation.keySize; simp)]
    exact ⟨hi, fun _ => rfl⟩

/-- An element moves between two different sets, or it is not there. -/
theorem does_smove {source destination element : Bytes} (hi : Inv (n + 3) s)
    (hs : source ≠ destination ∨ .field .kSet source element ∉ s.store) :
    Does (smove source destination element) s fun _ s' => Inv n s' := by
  have hp : Plain .kSet := .inr (.inl rfl)
  unfold smove
  refine does_withOperation hi hp.layout (fun op1 ho1 _ => ?_) (hi.mono (by omega))
  rw [does_bind]
  refine does_start (hi.ok destination) fun op2 hop2 => ?_
  split
  · rw [does_bind]
    exact (does_finalize_same hi ho1 nofun nofun).mono fun _ s' h => h.1.mono (by omega)
  rename_i hv
  have ho2 := hop2 (by simpa using hv)
  have hc := Counting.start hi hp ho1
  have hb := hc.size_bounds
  rw [does_bind]
  refine hc.deleteField (fun hm s1 hs1 hc1 => ?_) fun _ => ?_
  · rw [ho1.keyType_eq] at hm hs1
    have hne : destination ≠ source := by
      rcases hs with hne | hnm
      · exact hne.symm
      · exact absurd hm hnm
    rw [if_pos rfl, does_bind]
    refine (hc1.finalize ?_ ?_).mono fun _ s2 hs2 => ?_
    · exact sum64_of_fits (by omega) (by omega)
    · rw [ho1.keyType_eq]
      nofun
    have hd2 : s2.store.lookup (.descriptor destination) =
        s.store.lookup (.descriptor destination) := by
      rw [hs2.2 destination hne, hs1]
      exact AList.lookup_erase_ne nofun
    rw [← hd2] at ho2
    have hc2 := Counting.start hs2.1 hp ho2
    have hb2 := hc2.size_bounds
    rw [does_bind]
    refine hc2.fieldExists ?_
    by_cases hm2 : .field op2.keyinfo.keyType destination element ∈ s2.store
    · simp only [hm2, decide_true, if_true]
      rw [does_bind]
      exact (does_finalize_same hs2.1 ho2 nofun nofun).mono fun _ s' h => h.1.mono (by omega)
    · simp only [hm2, decide_false, Bool.false_eq_true, if_false]
      rw [does_bind]
      refine hc2.writeField fun s3 _ hc3 => ?_
      rw [if_neg hm2] at hc3
      rw [does_bind]
      refine (hc3.finalize ?_ ?_).mono fun _ s' h => h.1
      · exact sum64_of_fits (by omega) (by omega)
      · rw [ho2.keyType_eq]
        nofun
  · rw [if_neg nofun, does_bind]
    refine (does_finalize_same hi ho1 nofun nofun).mono fun _ s2 hs2 => ?_
    rw [← hs2.2 (.descriptor destination)] at ho2
    rw [does_bind]
    exact (does_finalize_same hs2.1 ho2 nofun nofun).mono fun _ s' h => h.1.mono (by omega)

/-! ## Clones -/

/-- The name of a field of a key. -/
def fieldName (type : KeyType) (key : Bytes) : StoreKey → Option Bytes
  | .field t k f => if t = type ∧ k = key then some f else none
  | _ => none

theorem fieldsOf_names (store : Store) (type : KeyType) (key : Bytes) :
    (fieldsOf store type key).map Prod.fst = store.keys.filterMap (fieldName type key) := by
  unfold fieldsOf AList.keys List.keys
  rw [List.map_filterMap, List.filterMap_map]
  congr 1
  funext e
  rcases e with ⟨k, value⟩
  unfold fieldName
  cases k <;> try rfl
  dsimp only [Function.comp]
  split <;> rfl

theorem fieldsOf_nodup (store : Store) (type : KeyType) (key : Bytes) :
    ((fieldsOf store type key).map Prod.fst).Nodup := by
  have hf : ∀ k f, f ∈ fieldName type key k → k = .field type key f := by
    intro k f h
    unfold fieldName at h
    split at h
    · split at h
      · rename_i he
        rw [Option.mem_some] at h
        rw [← h, he.1, he.2]
      · cases h
    · cases h
  rw [fieldsOf_names]
  refine store.keys_nodup.filterMap fun k k' f h h' => ?_
  rw [hf k f h, hf k' f h']

theorem length_fieldsOf_le (store : Store) (type : KeyType) (key : Bytes) :
    (fieldsOf store type key).length ≤ store.keys.length := by
  rw [← List.length_map (f := Prod.fst), fieldsOf_names]
  exact List.length_filterMap_le _ _

/-- Fields that are all new are all counted. -/
theorem does_writeAll (fields : List (Bytes × Bytes)) {s : StagingArea} {size : Int}
    (hc : Counting key desc op (n + fields.length) size s) (hn : (fields.map Prod.fst).Nodup)
    (hnew : ∀ f ∈ fields.map Prod.fst, .field op.keyinfo.keyType key f ∉ s.store) :
    Does (writeAll op fields) s fun _ s' => Counting key desc op n (size + fields.length) s' := by
  induction fields generalizing s size with
  | nil =>
    show Counting key desc op n (size + 0) s
    rw [Int.add_zero]
    exact hc
  | cons fv rest ih =>
    obtain ⟨field, value⟩ := fv
    rw [List.map_cons, List.nodup_cons] at hn
    have hf := hnew field (by simp)
    have hc1 : Counting key desc op (n + rest.length + 1) size s := hc.mono (by simp only [List.length_cons]; omega)
    unfold writeAll
    rw [does_bind]
    refine hc1.writeField fun s' hs' hc' => ?_
    rw [if_neg hf] at hc'
    refine (ih hc' hn.2 fun f hm => ?_).mono fun _ s'' h => ?_
    · rw [hs']
      show ¬ .field op.keyinfo.keyType key f ∈ s.store.insert _ _
      rw [AList.mem_insert, not_or]
      refine ⟨fun he => ?_, hnew f (List.mem_cons_of_mem _ hm)⟩
      rw [(StoreKey.field.inj he).2.2] at hm
      exact hn.1 hm
    · rw [List.length_cons, show size + ((rest.length + 1 : Nat) : Int) = size + 1 + rest.length by
        omega]
      exact h

theorem does_hclone (hi : Inv (n + s.store.keys.length + 1) s) (source target : Bytes) :
    Does (hclone source target) s fun _ s' => Inv n s' := by
  unfold hclone
  refine does_withOperation hi nofun (fun op ho _ => ?_) (hi.mono (by omega))
  split
  · exact hi.mono (by omega)
  rename_i hne
  have hnone : s.store.lookup (.descriptor target) = none := by
    rw [ho.exists_eq] at hne
    simpa using hne
  have hempty := (hi.ok target).nothing hnone
  have hz : op.keySize = 0 := (ho.fresh hnone).1
  rw [does_bind]
  refine does_getKeyDescriptor (hi.ok source) (fun _ => hi.mono (by omega))
    (fun bytes d _ _ data => ?_)
  rw [data.not_empty, if_neg nofun]
  split
  · exact hi.mono (by omega)
  rw [does_bind, does_state, does_bind]
  have hlen := length_fieldsOf_le s.store .kHash source
  have hc := Counting.start hi (.inl rfl) ho
  refine (does_writeAll (n := n + 1) _ (hc.mono (by omega)) (fieldsOf_nodup _ _ _) ?_).mono
    fun _ s' hc' => ?_
  · intro f _ hm
    exact hempty _ hm rfl
  rw [does_bind]
  refine does_assertThat fun _ => ?_
  rw [does_bind]
  refine (hc'.finalize ?_ ?_).mono fun _ s'' h => h.1
  · rw [hz, Int.zero_add]
  · rw [ho.keyType_eq]
    nofun

/-! ## Versioned hashes -/

theorem Counting.congr {s' : StagingArea} (h : Counting key desc op n size s)
    (hs : s'.store = s.store) : Counting key desc op n size s' := by
  refine ⟨h.opened, h.plain, ⟨?_, ?_, ?_⟩, ?_⟩ <;> rw [hs]
  · exact h.busy.others
  · exact h.busy.descriptor
  · exact h.busy.room
  · exact h.data

theorem does_nextVersion {changed : Bool} {post : UInt64 → StagingArea → Prop}
    (h : ∀ version, post version s) : Does (nextVersion op changed) s post := by
  unfold nextVersion
  rw [does_bind]
  show Does _ s post
  split
  · exact h _
  · exact h _

/-- What the transaction remembers of a versioned hash is not in the store. -/
theorem does_setRevisionNumber {rev : UInt64} {post : Unit → StagingArea → Prop}
    (h : ∀ s', s'.store = s.store → post () s') : Does (setRevisionNumber key rev) s post := by
  unfold setRevisionNumber
  rw [does_bind, does_state]
  dsimp only
  split
  · exact does_assertThat fun _ => h s rfl
  · exact h _ rfl

theorem does_addUpdates {updates : List (Bytes × Bytes)} {post : Unit → StagingArea → Prop}
    (h : ∀ s', s'.store = s.store → post () s') : Does (addUpdates key updates) s post :=
  h _ rfl

/-- The version may change with the size. -/
theorem Counting.finalize_version (h : Counting key desc op (n + 1) size s)
    (ht : op.keyinfo.keyType = .kVersionedHash) {newsize : Int} (hn : newsize = size)
    (version : UInt64) :
    Does ({ op with keyinfo := { op.keyinfo with startIndex := version } }.finalize newsize true) s
      fun _ s' => Inv n s' := by
  subst hn
  refine (does_finalize (by exact h.opened.redisKey_eq) (by exact h.opened.valid) h.busy ?_ ?_
    ?_ ?_).mono fun _ s' h => h.1
  · refine h.data.congr_descriptor rfl rfl fun hl => ?_
    dsimp only at hl
    rw [ht] at hl
    cases hl
  · have := h.size_bounds
    omega
  · nofun
  · nofun

theorem does_vhset (hi : Inv (n + 2) s) (key field value : Bytes) :
    Does (vhset key field value) s fun _ s' => Inv n s' := by
  unfold vhset
  refine does_withOperation hi nofun (fun op ho _ => ?_) (hi.mono (by omega))
  have hc := Counting.start hi (.inr (.inr rfl)) ho
  rw [does_bind]
  refine hc.fieldExists ?_
  rw [does_bind]
  refine hc.writeField fun s1 _ hc1 => ?_
  have hb := hc1.size_bounds
  rw [does_bind]
  refine does_nextVersion fun version => ?_
  rw [does_bind]
  refine does_setRevisionNumber fun s2 hs2 => ?_
  rw [does_bind]
  refine does_addUpdates fun s3 hs3 => ?_
  rw [does_bind]
  refine (((hc1.congr hs2).congr hs3).finalize_version ho.keyType_eq ?_ version).mono fun _ s' h => h
  exact sum64_created hc.size_bounds.1 (by omega)

theorem does_vhdel (hi : Inv (n + 1) s) (key : Bytes) (fields : List Bytes) :
    Does (vhdel key fields) s fun _ s' => Inv n s' := by
  unfold vhdel
  refine does_withOperation hi nofun (fun op ho _ => ?_) (hi.mono (by omega))
  have hc := Counting.start hi (.inr (.inr rfl)) ho
  have hb := hc.size_bounds
  rw [does_bind]
  refine (does_deleteLoop fields hc).mono fun removed s1 hc1 => ?_
  have hb1 := hc1.size_bounds
  rw [does_bind]
  refine does_addUpdates fun s2 hs2 => ?_
  rw [does_bind]
  refine does_nextVersion fun version => ?_
  rw [does_bind]
  refine does_setRevisionNumber fun s3 hs3 => ?_
  rw [does_bind]
  refine (((hc1.congr hs2).congr hs3).finalize_version ho.keyType_eq ?_ version).mono fun _ s' h => h
  exact sum64_of_fits (by omega) (by omega)

end

end quarkdb
