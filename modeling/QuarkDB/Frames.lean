-- What a command leaves alone. A property of the staging area that tolerates changes to
-- the keys of a command is kept by the command.
import QuarkDB.Dispatcher
import QuarkDB.Operations

namespace quarkdb

open Endian StateMachine StagingArea Outcome RedisDispatcher

/-! ## Faults -/

/-- What the bookkeeping of leases and of the clock checks. -/
def leaseFaults : List Fault :=
  [.assertion "!value.empty()",
    .assertion "mStoredLeases.count(leaseName) == 0u",
    .thrown "unable to find lease to remove: ",
    .thrown "Attempted to set state machine clock in the past: ",
    .thrown "Clock corruption, expected exactly 8 bytes, got ",
    .assertion "lease_release(stagingArea, front, ClockValue(0)).ok()"]

def Ordinary (fault : Fault) : Prop := fault ∉ leaseFaults

instance : DecidablePred Ordinary := fun fault => inferInstanceAs (Decidable (fault ∉ leaseFaults))

theorem ordinary_qdbAssert {holds : Bool} {condition : String}
    (h : Ordinary (.assertion condition)) :
    ∀ fault, qdbAssert holds condition = .error fault → Ordinary fault := by
  intro fault he
  unfold qdbAssert at he
  split at he
  · cases he
  · cases he
    exact h

theorem ordinary_bind {α β : Type} {call : Except Fault α} {f : α → Except Fault β}
    (h : ∀ fault, call = .error fault → Ordinary fault)
    (hf : ∀ a fault, f a = .error fault → Ordinary fault) :
    ∀ fault, (call >>= f) = .error fault → Ordinary fault := by
  intro fault he
  cases call with
  | error e =>
    cases he
    exact h _ rfl
  | ok a => exact hf a fault he

theorem ordinary_ofBytes (bytes : Bytes) :
    ∀ fault, KeyDescriptor.ofBytes bytes = .error fault → Ordinary fault := by
  unfold KeyDescriptor.ofBytes
  split
  · intro fault he
    cases he
    decide
  · dsimp only
    split
    · exact ordinary_bind (ordinary_qdbAssert (by decide)) nofun
    · refine ordinary_bind (ordinary_qdbAssert (by decide)) fun _ => ?_
      exact ordinary_bind (ordinary_qdbAssert (by decide)) nofun
    · exact ordinary_bind (ordinary_qdbAssert (by decide)) nofun
    · intro fault he
      cases he
      decide

theorem ordinary_serialize (d : KeyDescriptor) :
    ∀ fault, d.serialize = .error fault → Ordinary fault := by
  unfold KeyDescriptor.serialize
  split
  · nofun
  · exact ordinary_bind (ordinary_qdbAssert (by decide)) nofun
  · nofun
  · intro fault he
    cases he
    decide

theorem localityFieldKey_ok {key hint field : Bytes} {k : StoreKey}
    (h : localityFieldKey key hint field = .ok k) :
    k.owner = some key ∧ k.dataType = some .kLocalityHash := by
  obtain ⟨_, -, h⟩ := ok_of_bind h
  obtain ⟨_, -, h⟩ := ok_of_bind h
  cases h
  exact ⟨rfl, rfl⟩

theorem ordinary_localityFieldKey (key hint field : Bytes) :
    ∀ fault, localityFieldKey key hint field = .error fault → Ordinary fault := by
  refine ordinary_bind (ordinary_qdbAssert (by decide)) fun _ => ?_
  exact ordinary_bind (ordinary_qdbAssert (by decide)) nofun

theorem localityIndexKey_ok {key field : Bytes} {k : StoreKey}
    (h : localityIndexKey key field = .ok k) :
    k.owner = some key ∧ k.dataType = some .kLocalityHash := by
  obtain ⟨_, -, h⟩ := ok_of_bind h
  obtain ⟨_, -, h⟩ := ok_of_bind h
  cases h
  exact ⟨rfl, rfl⟩

theorem ordinary_localityIndexKey (key field : Bytes) :
    ∀ fault, localityIndexKey key field = .error fault → Ordinary fault := by
  refine ordinary_bind (ordinary_qdbAssert (by decide)) fun _ => ?_
  exact ordinary_bind (ordinary_qdbAssert (by decide)) nofun

namespace WriteOperation

theorem fieldKey_ok {op : WriteOperation} {field : Bytes} {k : StoreKey}
    (h : op.fieldKey field = .ok k) :
    k.owner = some op.redisKey ∧ k.dataType = some op.keyinfo.keyType := by
  obtain ⟨_, -, h⟩ := ok_of_bind h
  cases h
  exact ⟨rfl, rfl⟩

theorem ordinary_fieldKey (op : WriteOperation) (field : Bytes) :
    ∀ fault, op.fieldKey field = .error fault → Ordinary fault :=
  ordinary_bind (ordinary_qdbAssert (by decide)) nofun

theorem valueKey_ok {op : WriteOperation} {k : StoreKey} (h : op.valueKey = .ok k) :
    k.owner = some op.redisKey ∧ k.dataType = some op.keyinfo.keyType := by
  unfold valueKey at h
  split at h
  · rename_i ht
    cases h
    exact ⟨rfl, congrArg some ht.symm⟩
  split at h
  · rename_i ht
    cases h
    exact ⟨rfl, congrArg some ht.symm⟩
  · cases h

theorem ordinary_valueKey (op : WriteOperation) :
    ∀ fault, op.valueKey = .error fault → Ordinary fault := by
  unfold valueKey
  split
  · nofun
  split
  · nofun
  · intro fault he
    cases he
    decide

end WriteOperation

/-! ## Tolerance -/

/-- The descriptor of a key, if there is one, names the type. -/
def Fits (store : Store) (key : Bytes) (type : KeyType) : Prop :=
  ∀ bytes d, store.lookup (.descriptor key) = some bytes → KeyDescriptor.ofBytes bytes = .ok d →
    d.keyType = type

/-- Changes to a key of a type do not matter to a property of the staging area. -/
structure Tolerates (P : StagingArea → Prop) (key : Bytes) (type : KeyType) : Prop where
  put : ∀ s k value, k.owner = some key → k.dataType = some type → P s → P (s.putIn k value)
  del : ∀ s k, k.owner = some key → k.dataType = some type → P s → P (s.delIn k)
  describe : ∀ s (d : KeyDescriptor) bytes, d.keyType = type → d.serialize = .ok bytes → P s →
    P (s.putIn (.descriptor key) bytes)
  forget : ∀ s, P s → P (s.delIn (.descriptor key))
  revise : ∀ s revision, P s →
    P { s with revisionTracker := s.revisionTracker.insert key revision }

/-- Changes to a key do not matter once an operation of the type is let through. -/
def Gated (P : StagingArea → Prop) (key : Bytes) (type : KeyType) : Prop :=
  ∀ s, P s → Fits s.store key type → Tolerates P key type

theorem ofBytes_not_empty {bytes : Bytes} {d : KeyDescriptor}
    (h : KeyDescriptor.ofBytes bytes = .ok d) : d.empty = false := by
  have hne : ∀ type, KeyDescriptor.layout type ≠ .none → decide (type = .kNull) = false := by
    intro type hl
    cases type <;> first | rfl | exact absurd rfl hl
  unfold KeyDescriptor.ofBytes at h
  split at h
  · cases h
  · dsimp only at h
    split at h
    · rename_i hl
      obtain ⟨_, -, h⟩ := ok_of_bind h
      cases h
      exact hne _ (by rw [hl]; nofun)
    · rename_i hl
      obtain ⟨_, -, h⟩ := ok_of_bind h
      obtain ⟨_, -, h⟩ := ok_of_bind h
      cases h
      exact hne _ (by rw [hl]; nofun)
    · rename_i hl
      obtain ⟨_, -, h⟩ := ok_of_bind h
      cases h
      exact hne _ (by rw [hl]; nofun)
    · cases h

/-! ## The steps of a command -/

/-- The command keeps a property, and fails in no way that leases know of. -/
abbrev Leaves {α : Type} (P : StagingArea → Prop) (c : StagingM α) : Prop := Keeps P Ordinary c

section

variable {P : StagingArea → Prop} {α β : Type}

theorem leaves_throwing {call : Except Fault α} {f : α → StagingM β}
    (he : ∀ fault, call = .error fault → Ordinary fault)
    (hf : ∀ a, call = .ok a → Leaves P (f a)) : Leaves P (throwing call >>= f) :=
  keeps_lift he hf

theorem leaves_assertThat {holds : Bool} {condition : String} {f : Unit → StagingM β}
    (hc : Ordinary (.assertion condition)) (hf : holds = true → Leaves P (f ())) :
    Leaves P (assertThat holds condition >>= f) := by
  refine leaves_throwing (ordinary_qdbAssert hc) fun _ ha => hf ?_
  cases holds with
  | true => rfl
  | false => cases ha

theorem leaves_get (k : StoreKey) : Leaves P (StagingArea.get k) := fun _ hs => hs

theorem leaves_keyExists (k : StoreKey) : Leaves P (keyExists k) := fun _ hs => hs

theorem leaves_inWriteBatch (k : StoreKey) : Leaves P (inWriteBatch k) := fun _ hs => hs

theorem leaves_mustExist (k : StoreKey) : Leaves P (mustExist k) := by
  unfold mustExist
  refine keeps_bind (leaves_keyExists k) fun found => ?_
  split
  · exact keeps_throw (by decide)
  · exact keeps_pure ()

theorem leaves_getKeyDescriptor (key : Bytes) : Leaves P (getKeyDescriptor key) := by
  unfold getKeyDescriptor
  refine keeps_bind (leaves_get _) fun found => ?_
  split
  · exact keeps_pure _
  · rename_i bytes
    intro s hs
    exact yields_lift.mpr ⟨fun _ _ => hs, ordinary_ofBytes bytes⟩

theorem leaves_assertWritable (op : WriteOperation) : Leaves P op.assertWritable := by
  unfold WriteOperation.assertWritable
  split
  · exact keeps_throw (by decide)
  · exact keeps_pure ()

variable {key : Bytes} {type : KeyType}

/-- An operation that is valid may rely on what its type lets through. -/
theorem keeps_start {fault : Fault → Prop} {gate : Prop} {f : WriteOperation → StagingM α}
    (hf : ∀ e, Ordinary e → fault e) (hg : ∀ s, P s → Fits s.store key type → gate)
    (hvalid : ∀ op, op.isValid = true → op.redisKey = key → op.keyinfo.keyType = type →
      gate → Keeps P fault (f op))
    (hinvalid : ∀ op, op.isValid = false → Keeps P fault (f op)) :
    Keeps P fault (WriteOperation.start key type >>= f) := by
  intro s hs
  unfold WriteOperation.start getKeyDescriptor
  rw [bind_assoc, bind_assoc, yields_bind, yields_lookup]
  rcases hl : s.store.lookup (.descriptor key) with _ | bytes <;> rw [hl] <;> dsimp only
  · have ht : gate := hg s hs fun bytes d hb => by rw [hl] at hb; cases hb
    refine hvalid (.fresh key type) rfl rfl ?_ ht s hs
    unfold WriteOperation.fresh
    dsimp only
    split <;> rfl
  · rw [yields_bind]
    refine yields_lift.mpr ⟨fun d hd => ?_, fun e he => hf e (ordinary_ofBytes bytes e he)⟩
    rw [ofBytes_not_empty hd]
    by_cases ht : d.keyType = type
    · have hfit : Fits s.store key type := by
        intro bytes' d' hb hd'
        rw [hl] at hb
        cases hb
        rw [hd] at hd'
        cases hd'
        exact ht
      exact hvalid _ (decide_eq_true ht) rfl ht (hg s hs hfit) s hs
    · exact hinvalid _ (decide_eq_false ht) s hs

theorem keeps_withOperation {fault : Fault → Prop} {gate : Prop} {otherwise : α}
    {body : WriteOperation → StagingM α} (hf : ∀ e, Ordinary e → fault e)
    (hg : ∀ s, P s → Fits s.store key type → gate)
    (hbody : ∀ op, op.redisKey = key → op.keyinfo.keyType = type → gate →
      Keeps P fault (body op)) : Keeps P fault (withOperation key type otherwise body) := by
  refine keeps_start hf hg (fun op hv hk ht htol => ?_) fun op hv => ?_
  · rw [if_pos hv]
    exact hbody op hk ht htol
  · rw [if_neg (by rw [hv]; nofun)]
    exact keeps_pure _

/-- An operation that is valid may change its key. -/
theorem leaves_start {f : WriteOperation → StagingM α} (hg : Gated P key type)
    (hvalid : ∀ op, op.isValid = true → op.redisKey = key → op.keyinfo.keyType = type →
      Tolerates P key type → Leaves P (f op))
    (hinvalid : ∀ op, op.isValid = false → Leaves P (f op)) :
    Leaves P (WriteOperation.start key type >>= f) :=
  keeps_start (fun _ h => h) hg hvalid hinvalid

theorem leaves_withOperation {otherwise : α} {body : WriteOperation → StagingM α}
    (hg : Gated P key type)
    (hbody : ∀ op, op.redisKey = key → op.keyinfo.keyType = type → Tolerates P key type →
      Leaves P (body op)) : Leaves P (withOperation key type otherwise body) :=
  keeps_withOperation (fun _ h => h) hg hbody

variable {k : StoreKey} {op : WriteOperation}

theorem leaves_put (ht : Tolerates P key type) (ho : k.owner = some key)
    (hk : k.dataType = some type) (value : Bytes) : Leaves P (put k value) :=
  fun s hs => ht.put s k value ho hk hs

theorem leaves_del (ht : Tolerates P key type) (ho : k.owner = some key)
    (hk : k.dataType = some type) : Leaves P (del k) :=
  fun s hs => ht.del s k ho hk hs

theorem leaves_deleteKey (ht : Tolerates P key type) (ho : k.owner = some key)
    (hk : k.dataType = some type) : Leaves P (WriteOperation.deleteKey k) := by
  unfold WriteOperation.deleteKey
  refine keeps_bind (leaves_keyExists k) fun found => ?_
  dsimp only
  split
  · exact keeps_bind (leaves_del ht ho hk) fun _ => keeps_pure _
  · exact keeps_pure _

/-- The operation writes where the property tolerates it. -/
def Opens (P : StagingArea → Prop) (op : WriteOperation) : Prop :=
  Tolerates P op.redisKey op.keyinfo.keyType

theorem opens_of (hk : op.redisKey = key) (ht : op.keyinfo.keyType = type)
    (htol : Tolerates P key type) : Opens P op := by
  unfold Opens
  rw [hk, ht]
  exact htol

theorem leaves_write (h : Opens P op) (value : Bytes) : Leaves P (op.write value) := by
  unfold WriteOperation.write
  refine keeps_bind (leaves_assertWritable op) fun _ => ?_
  refine leaves_throwing op.ordinary_valueKey fun k hk => ?_
  exact leaves_put h (WriteOperation.valueKey_ok hk).1 (WriteOperation.valueKey_ok hk).2 value

theorem leaves_getField (field : Bytes) : Leaves P (op.getField field) := by
  unfold WriteOperation.getField
  refine keeps_bind (leaves_assertWritable op) fun _ => ?_
  exact leaves_throwing (op.ordinary_fieldKey field) fun k _ => leaves_get k

theorem leaves_fieldExists (field : Bytes) : Leaves P (op.fieldExists field) := by
  unfold WriteOperation.fieldExists
  refine keeps_bind (leaves_assertWritable op) fun _ => ?_
  exact leaves_throwing (op.ordinary_fieldKey field) fun k _ => leaves_keyExists k

theorem leaves_writeField (h : Opens P op) (field value : Bytes) :
    Leaves P (op.writeField field value) := by
  unfold WriteOperation.writeField
  refine keeps_bind (leaves_assertWritable op) fun _ => ?_
  refine leaves_throwing (op.ordinary_fieldKey field) fun k hk => ?_
  exact leaves_put h (WriteOperation.fieldKey_ok hk).1 (WriteOperation.fieldKey_ok hk).2 value

theorem leaves_deleteField (h : Opens P op) (field : Bytes) :
    Leaves P (op.deleteField field) := by
  unfold WriteOperation.deleteField
  refine keeps_bind (leaves_assertWritable op) fun _ => ?_
  refine leaves_throwing (op.ordinary_fieldKey field) fun k hk => ?_
  exact leaves_deleteKey h (WriteOperation.fieldKey_ok hk).1 (WriteOperation.fieldKey_ok hk).2

theorem leaves_assertLocality {f : Unit → StagingM α}
    (hf : op.keyinfo.keyType = .kLocalityHash → Leaves P (f ())) :
    Leaves P (op.assertLocality >>= f) := by
  unfold WriteOperation.assertLocality
  rw [bind_assoc]
  refine keeps_bind (leaves_assertWritable op) fun _ => ?_
  exact leaves_assertThat (by decide) fun ht => hf (of_decide_eq_true ht)

theorem leaves_localityFieldExists (hint field : Bytes) :
    Leaves P (op.localityFieldExists hint field) := by
  refine leaves_assertLocality fun _ => ?_
  exact leaves_throwing (ordinary_localityFieldKey _ _ _) fun k _ => leaves_keyExists k

theorem leaves_writeLocalityField (h : Opens P op) (hint field value : Bytes) :
    Leaves P (op.writeLocalityField hint field value) := by
  refine leaves_assertLocality fun ht => ?_
  refine leaves_throwing (ordinary_localityFieldKey _ _ _) fun k hk => ?_
  exact leaves_put h (localityFieldKey_ok hk).1 (ht ▸ (localityFieldKey_ok hk).2) value

theorem leaves_deleteLocalityField (h : Opens P op) (hint field : Bytes) :
    Leaves P (op.deleteLocalityField hint field) := by
  refine leaves_assertLocality fun ht => ?_
  refine leaves_throwing (ordinary_localityFieldKey _ _ _) fun k hk => ?_
  exact leaves_deleteKey h (localityFieldKey_ok hk).1 (ht ▸ (localityFieldKey_ok hk).2)

theorem leaves_getLocalityIndex (field : Bytes) : Leaves P (op.getLocalityIndex field) := by
  refine leaves_assertLocality fun _ => ?_
  exact leaves_throwing (ordinary_localityIndexKey _ _) fun k _ => leaves_get k

theorem leaves_writeLocalityIndex (h : Opens P op) (field hint : Bytes) :
    Leaves P (op.writeLocalityIndex field hint) := by
  refine leaves_assertLocality fun ht => ?_
  refine leaves_throwing (ordinary_localityIndexKey _ _) fun k hk => ?_
  exact leaves_put h (localityIndexKey_ok hk).1 (ht ▸ (localityIndexKey_ok hk).2) hint

theorem leaves_getAndDeleteLocalityIndex (h : Opens P op) (field : Bytes) :
    Leaves P (op.getAndDeleteLocalityIndex field) := by
  refine leaves_assertLocality fun ht => ?_
  refine leaves_throwing (ordinary_localityIndexKey _ _) fun k hk => ?_
  refine keeps_bind (leaves_get k) fun hint => ?_
  dsimp only
  split
  · refine keeps_bind ?_ fun _ => keeps_pure _
    exact leaves_del h (localityIndexKey_ok hk).1 (ht ▸ (localityIndexKey_ok hk).2)
  · exact keeps_pure _

theorem leaves_finalize (h : Opens P op) (newsize : Int) (force : Bool) :
    Leaves P (op.finalize newsize force) := by
  unfold WriteOperation.finalize
  refine keeps_bind (leaves_assertWritable op) fun _ => ?_
  dsimp only
  split
  · exact keeps_throw_bind (by decide)
  split
  · exact fun s hs => h.forget s hs
  split
  · refine leaves_throwing (ordinary_serialize _) fun bytes hb => ?_
    exact fun s hs => h.describe s { op.keyinfo with sz := newsize } bytes rfl hb hs
  · exact keeps_pure ()

end

/-! ## Commands on strings, hashes and sets -/

section

variable {P : StagingArea → Prop} {key : Bytes}

theorem leaves_set (hg : Gated P key .kString) (value : Bytes) : Leaves P (set key value) := by
  refine leaves_withOperation hg fun op hk ht htol => ?_
  have ho := opens_of hk ht htol
  refine keeps_bind (leaves_write ho value) fun _ => ?_
  exact keeps_bind (leaves_finalize ho _ _) fun _ => keeps_pure _

theorem leaves_hset (hg : Gated P key .kHash) (field value : Bytes) :
    Leaves P (hset key field value) := by
  refine leaves_withOperation hg fun op hk ht htol => ?_
  have ho := opens_of hk ht htol
  refine keeps_bind (leaves_fieldExists field) fun found => ?_
  refine keeps_bind (leaves_writeField ho field value) fun _ => ?_
  exact keeps_bind (leaves_finalize ho _ _) fun _ => keeps_pure _

theorem leaves_hmsetLoop {op : WriteOperation} (ho : Opens P op) (newsize : Int)
    (args : List Bytes) : Leaves P (hmsetLoop op newsize args) := by
  induction newsize, args using hmsetLoop.induct with
  | case1 newsize field value rest ih =>
    unfold hmsetLoop
    refine keeps_bind (leaves_fieldExists field) fun found => ?_
    exact keeps_bind (leaves_writeField ho field value) fun _ => ih found
  | case2 newsize args hne =>
    unfold hmsetLoop
    split
    · exact (hne _ _ _ rfl).elim
    · exact keeps_pure _

theorem leaves_hmset (hg : Gated P key .kHash) (args : List Bytes) :
    Leaves P (hmset key args) := by
  unfold hmset
  dsimp only
  split
  · exact keeps_throw_bind (by decide)
  refine leaves_withOperation hg fun op hk ht htol => ?_
  have ho := opens_of hk ht htol
  refine keeps_bind (leaves_hmsetLoop ho _ args) fun newsize => ?_
  exact keeps_bind (leaves_finalize ho _ _) fun _ => keeps_pure _

theorem leaves_hsetnx (hg : Gated P key .kHash) (field value : Bytes) :
    Leaves P (hsetnx key field value) := by
  refine leaves_withOperation hg fun op hk ht htol => ?_
  have ho := opens_of hk ht htol
  refine keeps_bind (leaves_fieldExists field) fun found => ?_
  dsimp only
  split
  · refine keeps_bind (leaves_writeField ho field value) fun _ => ?_
    exact keeps_bind (leaves_finalize ho _ _) fun _ => keeps_pure _
  · exact keeps_bind (leaves_finalize ho _ _) fun _ => keeps_pure _

theorem leaves_increment {ν : Type} {parse : Bytes → Option ν} {readStart : Bytes → ν}
    {add : ν → ν → ν} {zero : ν} {toBytes : ν → Bytes} {malformedArg malformedValue : String}
    (hg : Gated P key .kHash) (field incrby : Bytes) :
    Leaves P (increment parse readStart add zero toBytes malformedArg malformedValue key field
      incrby) := by
  unfold increment
  split
  · exact keeps_pure _
  refine leaves_withOperation hg fun op hk ht htol => ?_
  have ho := opens_of hk ht htol
  refine keeps_bind (leaves_getField field) fun value => ?_
  dsimp only
  split
  · exact keeps_bind (leaves_finalize ho _ _) fun _ => keeps_pure _
  · refine keeps_bind (leaves_writeField ho field _) fun _ => ?_
    exact keeps_bind (leaves_finalize ho _ _) fun _ => keeps_pure _

theorem leaves_deleteLoop {op : WriteOperation} (ho : Opens P op) (fields : List Bytes) :
    Leaves P (deleteLoop op fields) := by
  induction fields with
  | nil => exact keeps_pure _
  | cons field rest ih =>
    refine keeps_bind (leaves_deleteField ho field) fun found => ?_
    exact keeps_bind ih fun removed => keeps_pure _

theorem leaves_deleteFields {type : KeyType} (hg : Gated P key type) (fields : List Bytes) :
    Leaves P (deleteFields type key fields) := by
  refine leaves_withOperation hg fun op hk ht htol => ?_
  have ho := opens_of hk ht htol
  refine keeps_bind (leaves_deleteLoop ho fields) fun removed => ?_
  exact keeps_bind (leaves_finalize ho _ _) fun _ => keeps_pure _

theorem leaves_writeAll {op : WriteOperation} (ho : Opens P op) (fields : List (Bytes × Bytes)) :
    Leaves P (writeAll op fields) := by
  induction fields with
  | nil => exact keeps_pure _
  | cons e rest ih => exact keeps_bind (leaves_writeField ho e.1 e.2) fun _ => ih

theorem leaves_hclone {source target : Bytes} (hg : Gated P target .kHash) :
    Leaves P (hclone source target) := by
  refine leaves_withOperation hg fun op hk ht htol => ?_
  have ho := opens_of hk ht htol
  dsimp only
  split
  · exact keeps_pure _
  refine keeps_bind (leaves_getKeyDescriptor source) fun sourceKeyInfo => ?_
  split
  · exact keeps_pure _
  split
  · exact keeps_pure _
  refine keeps_get fun s _ => ?_
  refine keeps_bind (leaves_writeAll ho _) fun _ => ?_
  refine leaves_assertThat (by decide) fun _ => ?_
  exact keeps_bind (leaves_finalize ho _ _) fun _ => keeps_pure _

theorem leaves_saddLoop {op : WriteOperation} (ho : Opens P op) (elements : List Bytes) :
    Leaves P (saddLoop op elements) := by
  induction elements with
  | nil => exact keeps_pure _
  | cons element rest ih =>
    refine keeps_bind (leaves_fieldExists element) fun found => ?_
    dsimp only
    split
    · refine keeps_bind (leaves_writeField ho element _) fun _ => ?_
      exact keeps_bind ih fun added => keeps_pure _
    · exact keeps_bind ih fun added => keeps_pure _

theorem leaves_sadd (hg : Gated P key .kSet) (elements : List Bytes) :
    Leaves P (sadd key elements) := by
  refine leaves_withOperation hg fun op hk ht htol => ?_
  have ho := opens_of hk ht htol
  refine keeps_bind (leaves_saddLoop ho elements) fun added => ?_
  exact keeps_bind (leaves_finalize ho _ _) fun _ => keeps_pure _

theorem leaves_smove {source destination : Bytes} (hs : Gated P source .kSet)
    (hd : Gated P destination .kSet) (element : Bytes) :
    Leaves P (smove source destination element) := by
  refine leaves_withOperation hs fun op1 hk1 ht1 htol1 => ?_
  have ho1 := opens_of hk1 ht1 htol1
  refine leaves_start hd (fun op2 hv hk2 ht2 htol2 => ?_) fun op2 hv => ?_
  · have ho2 := opens_of hk2 ht2 htol2
    rw [if_neg (by rw [hv]; nofun)]
    refine keeps_bind (leaves_deleteField ho1 element) fun found => ?_
    split
    · refine keeps_bind (leaves_finalize ho1 _ _) fun _ => ?_
      refine keeps_bind (leaves_fieldExists element) fun there => ?_
      dsimp only
      split
      · exact keeps_bind (leaves_finalize ho2 _ _) fun _ => keeps_pure _
      · refine keeps_bind (leaves_writeField ho2 element _) fun _ => ?_
        exact keeps_bind (leaves_finalize ho2 _ _) fun _ => keeps_pure _
    · refine keeps_bind (leaves_finalize ho1 _ _) fun _ => ?_
      exact keeps_bind (leaves_finalize ho2 _ _) fun _ => keeps_pure _
  · rw [if_pos (by rw [hv]; rfl)]
    exact keeps_bind (leaves_finalize ho1 _ _) fun _ => keeps_pure _

/-! ## Commands on deques -/

theorem leaves_pushLoop {op : WriteOperation} (ho : Opens P op) (direction : Direction)
    (listIndex : UInt64) (itemsAdded : Nat) (items : List Bytes) :
    Leaves P (pushLoop op direction listIndex itemsAdded items) := by
  induction items generalizing itemsAdded with
  | nil => exact keeps_pure _
  | cons item rest ih => exact keeps_bind (leaves_writeField ho _ item) fun _ => ih (itemsAdded + 1)

theorem keyType_setListIndex (d : KeyDescriptor) (direction : Direction) (index : UInt64) :
    (d.setListIndex direction index).keyType = d.keyType := by
  cases direction <;> rfl

/-- An operation with another descriptor of the same type opens the same key. -/
theorem Opens.with_keyinfo {op : WriteOperation} (ho : Opens P op) {d : KeyDescriptor}
    (hd : d.keyType = op.keyinfo.keyType) : Opens P { op with keyinfo := d } :=
  opens_of rfl hd ho

theorem Opens.with_startIndex {op : WriteOperation} (ho : Opens P op) (index : UInt64) :
    Opens P { op with keyinfo := { op.keyinfo with startIndex := index } } :=
  opens_of rfl rfl ho

theorem leaves_dequePush (hg : Gated P key .kDeque) (direction : Direction) (items : List Bytes) :
    Leaves P (dequePush direction key items) := by
  refine leaves_withOperation hg fun op hk ht htol => ?_
  have ho := opens_of hk ht htol
  dsimp only
  refine keeps_bind (leaves_pushLoop ho direction _ 0 items) fun _ => ?_
  refine keeps_bind (leaves_finalize (ho.with_keyinfo ?_) _ _) fun _ => keeps_pure _
  split
  · rw [keyType_setListIndex, keyType_setListIndex]
  · rw [keyType_setListIndex]

theorem leaves_dequePop (hg : Gated P key .kDeque) (direction : Direction) :
    Leaves P (dequePop direction key) := by
  refine leaves_withOperation hg fun op hk ht htol => ?_
  have ho := opens_of hk ht htol
  split
  · exact keeps_bind (leaves_finalize ho _ _) fun _ => keeps_pure _
  dsimp only
  refine keeps_bind (leaves_getField _) fun found => ?_
  split
  · exact keeps_throw (by decide)
  refine keeps_bind (leaves_deleteField ho _) fun deleted => ?_
  refine leaves_assertThat (by decide) fun _ => ?_
  exact keeps_bind (leaves_finalize (ho.with_keyinfo (keyType_setListIndex _ _ _)) _ _) fun _ =>
    keeps_pure _

theorem leaves_trimLoop {op : WriteOperation} (ho : Opens P op) (toRemove : Nat)
    (nextToEliminate : UInt64) : Leaves P (trimLoop op toRemove nextToEliminate) := by
  induction toRemove generalizing nextToEliminate with
  | zero => exact keeps_pure _
  | succ toRemove ih =>
    refine keeps_bind (leaves_deleteField ho _) fun deleted => ?_
    exact leaves_assertThat (by decide) fun _ => ih (nextToEliminate + 1)

theorem leaves_dequeTrimFront (hg : Gated P key .kDeque) (maxToKeepStr : Bytes) :
    Leaves P (dequeTrimFront key maxToKeepStr) := by
  unfold dequeTrimFront
  split
  · exact keeps_pure _
  split
  · exact keeps_pure _
  refine leaves_withOperation hg fun op hk ht htol => ?_
  have ho := opens_of hk ht htol
  dsimp only
  split
  · exact keeps_pure _
  refine keeps_bind (leaves_trimLoop ho _ _) fun _ => ?_
  refine leaves_assertThat (by decide +kernel) fun _ => ?_
  exact keeps_bind (leaves_finalize (ho.with_startIndex _) _ _) fun _ => keeps_pure _

/-! ## Commands on locality hashes -/

theorem leaves_lhsetInternal {op : WriteOperation} (ho : Opens P op) (field hint value : Bytes) :
    Leaves P (lhsetInternal op field hint value) := by
  refine keeps_bind (leaves_localityFieldExists hint field) fun found => ?_
  split
  · exact keeps_bind (leaves_writeLocalityField ho hint field value) fun _ => keeps_pure _
  refine keeps_bind (leaves_getLocalityIndex field) fun previous => ?_
  split
  · refine keeps_bind (leaves_deleteLocalityField ho _ field) fun deleted => ?_
    refine leaves_assertThat (by decide) fun _ => ?_
    refine keeps_bind (leaves_writeLocalityField ho hint field value) fun _ => ?_
    exact keeps_bind (leaves_writeLocalityIndex ho field hint) fun _ => keeps_pure _
  · refine keeps_bind (leaves_writeLocalityField ho hint field value) fun _ => ?_
    exact keeps_bind (leaves_writeLocalityIndex ho field hint) fun _ => keeps_pure _

theorem leaves_lhmsetLoop {op : WriteOperation} (ho : Opens P op) (args : List Bytes) :
    Leaves P (lhmsetLoop op args) := by
  induction args using lhmsetLoop.induct with
  | case1 field hint value rest ih =>
    unfold lhmsetLoop
    refine keeps_bind (leaves_lhsetInternal ho field hint value) fun fieldcreated => ?_
    exact keeps_bind ih fun created => keeps_pure _
  | case2 args hne =>
    unfold lhmsetLoop
    split
    · exact (hne _ _ _ _ rfl).elim
    · exact keeps_pure _

theorem leaves_lhmset (hg : Gated P key .kLocalityHash) (args : List Bytes) :
    Leaves P (lhmset key args) := by
  unfold lhmset
  dsimp only
  split
  · exact keeps_throw_bind (by decide)
  refine leaves_withOperation hg fun op hk ht htol => ?_
  have ho := opens_of hk ht htol
  refine keeps_bind (leaves_lhmsetLoop ho args) fun created => ?_
  exact keeps_bind (leaves_finalize ho _ _) fun _ => keeps_pure _

theorem leaves_lhset (hg : Gated P key .kLocalityHash) (field hint value : Bytes) :
    Leaves P (lhset key field hint value) := by
  refine leaves_withOperation hg fun op hk ht htol => ?_
  have ho := opens_of hk ht htol
  refine keeps_bind (leaves_lhsetInternal ho field hint value) fun fieldcreated => ?_
  exact keeps_bind (leaves_finalize ho _ _) fun _ => keeps_pure _

theorem leaves_lhdelLoop {op : WriteOperation} (ho : Opens P op) (fields : List Bytes) :
    Leaves P (lhdelLoop op fields) := by
  induction fields with
  | nil => exact keeps_pure _
  | cons field rest ih =>
    refine keeps_bind (leaves_getAndDeleteLocalityIndex ho field) fun hint => ?_
    dsimp only
    split
    · exact keeps_bind ih fun removed => keeps_pure _
    · refine keeps_bind (leaves_deleteLocalityField ho _ field) fun deleted => ?_
      refine leaves_assertThat (by decide) fun _ => ?_
      exact keeps_bind ih fun removed => keeps_pure _

theorem leaves_lhdel (hg : Gated P key .kLocalityHash) (fields : List Bytes) :
    Leaves P (lhdel key fields) := by
  refine leaves_withOperation hg fun op hk ht htol => ?_
  have ho := opens_of hk ht htol
  refine keeps_bind (leaves_lhdelLoop ho fields) fun removed => ?_
  exact keeps_bind (leaves_finalize ho _ _) fun _ => keeps_pure _

theorem leaves_assertKeyType (type : KeyType) : Leaves P (assertKeyType key type) :=
  keeps_bind (leaves_getKeyDescriptor key) fun _ => keeps_pure _

theorem leaves_lhlocdel (hg : Gated P key .kLocalityHash) (field hint : Bytes) :
    Leaves P (lhlocdel key field hint) := by
  refine keeps_bind (leaves_assertKeyType _) fun right => ?_
  split
  · exact keeps_pure _
  refine leaves_throwing (ordinary_localityFieldKey _ _ _) fun k _ => ?_
  refine keeps_bind (leaves_keyExists k) fun found => ?_
  split
  · refine keeps_bind (leaves_lhdel hg [field]) fun result => ?_
    exact leaves_assertThat (by decide) fun _ => keeps_pure _
  · exact keeps_pure _

theorem leaves_hget (field : Bytes) : Leaves P (hget key field) := by
  refine keeps_bind (leaves_assertKeyType _) fun right => ?_
  split
  · exact keeps_pure _
  refine keeps_bind (leaves_get _) fun found => ?_
  split
  · exact keeps_pure _
  · exact keeps_pure _

/-- Where a field is read, by its hint or by the hint in the index. -/
theorem leaves_readLocalityField (hint field : Bytes) {α : Type} {f : Option Bytes → StagingM α}
    (hf : ∀ found, Leaves P (f found)) :
    Leaves P (do f (← StagingArea.get (← throwing (localityFieldKey key hint field)))) := by
  refine leaves_throwing (ordinary_localityFieldKey _ _ _) fun k _ => ?_
  exact keeps_bind (leaves_get k) hf

/-- Where the index leads to. -/
theorem leaves_readIndexed (correctHint field : Bytes) : Leaves P (do
    match ← StagingArea.get (← throwing (localityFieldKey key correctHint field)) with
    | some value => return (Status.OK, value)
    | none => throw (.thrown "NotFound: ") : StagingM (Status × Bytes)) := by
  refine leaves_readLocalityField correctHint field fun found => ?_
  split
  · exact keeps_pure _
  · exact keeps_throw (by decide)

theorem leaves_lhgetByIndex (field hint : Bytes) : Leaves P (do
    match ← StagingArea.get (← throwing (localityIndexKey key field)) with
    | none => return (Status.NotFound, [])
    | some correctHint =>
      if !hint.isEmpty then assertThat (hint ≠ correctHint) "hint != correctHint"
      match ← StagingArea.get (← throwing (localityFieldKey key correctHint field)) with
      | some value => return (.OK, value)
      | none => throw (.thrown "NotFound: ") : StagingM (Status × Bytes)) := by
  refine leaves_throwing (ordinary_localityIndexKey _ _) fun k _ => ?_
  refine keeps_bind (leaves_get k) fun found => ?_
  split
  · exact keeps_pure _
  dsimp only
  split
  · exact leaves_assertThat (by decide) fun _ => leaves_readIndexed _ field
  · exact leaves_readIndexed _ field

theorem leaves_lhget (field hint : Bytes) : Leaves P (lhget key field hint) := by
  refine keeps_bind (leaves_assertKeyType _) fun right => ?_
  split
  · exact keeps_pure _
  dsimp only
  split
  · exact leaves_lhgetByIndex field hint
  refine leaves_readLocalityField hint field fun direct => ?_
  split
  · exact keeps_pure _
  · exact leaves_lhgetByIndex field hint

/-! ## Commands on versioned hashes -/

theorem leaves_updateRevision {type : KeyType} (ht : Tolerates P key type)
    (update : VersionedHashRevision → VersionedHashRevision) :
    Leaves P (updateRevision key update) :=
  keeps_modify fun s hs => ht.revise s _ hs

theorem leaves_setRevisionNumber {type : KeyType} (ht : Tolerates P key type) (rev : UInt64) :
    Leaves P (setRevisionNumber key rev) := by
  refine keeps_get fun s _ => ?_
  dsimp only
  split
  · intro s' hs'
    exact yields_lift.mpr ⟨fun _ _ => hs', ordinary_qdbAssert (by decide)⟩
  · exact leaves_updateRevision ht _

theorem leaves_nextVersion (op : WriteOperation) (changed : Bool) :
    Leaves P (nextVersion op changed) := by
  refine keeps_bind (leaves_inWriteBatch _) fun modified => ?_
  split
  · exact keeps_pure _
  · exact keeps_pure _

theorem leaves_vhset (hg : Gated P key .kVersionedHash) (field value : Bytes) :
    Leaves P (vhset key field value) := by
  refine leaves_withOperation hg fun op hk ht htol => ?_
  have ho := opens_of hk ht htol
  refine keeps_bind (leaves_fieldExists field) fun found => ?_
  refine keeps_bind (leaves_writeField ho field value) fun _ => ?_
  refine keeps_bind (leaves_nextVersion op _) fun version => ?_
  refine keeps_bind (leaves_setRevisionNumber htol version) fun _ => ?_
  refine keeps_bind (leaves_updateRevision htol _) fun _ => ?_
  exact keeps_bind (leaves_finalize (ho.with_startIndex version) _ _) fun _ => keeps_pure _

theorem leaves_vhdel (hg : Gated P key .kVersionedHash) (fields : List Bytes) :
    Leaves P (vhdel key fields) := by
  refine leaves_withOperation hg fun op hk ht htol => ?_
  have ho := opens_of hk ht htol
  refine keeps_bind (leaves_deleteLoop ho fields) fun removed => ?_
  refine keeps_bind (leaves_updateRevision htol _) fun _ => ?_
  refine keeps_bind (leaves_nextVersion op _) fun version => ?_
  refine keeps_bind (leaves_setRevisionNumber htol version) fun _ => ?_
  exact keeps_bind (leaves_finalize (ho.with_startIndex version) _ _) fun _ => keeps_pure _

/-! ## Removals -/

theorem leaves_delAll {keys : List StoreKey} (hk : ∀ k ∈ keys, ∀ s, P s → P (s.delIn k)) :
    Leaves P (delAll keys) := by
  induction keys with
  | nil => exact keeps_pure _
  | cons k rest ih =>
    refine keeps_bind (fun s hs => hk k List.mem_cons_self s hs) fun _ => ?_
    exact ih fun k' hk' => hk k' (List.mem_cons_of_mem k hk')

theorem leaves_removeAll {under : StoreKey → Bool}
    (hu : ∀ k, under k = true → ∀ s, P s → P (s.delIn k)) : Leaves P (removeAll under) := by
  refine keeps_get fun s _ => ?_
  refine keeps_bind (leaves_delAll fun k hk => ?_) fun _ => keeps_pure _
  exact hu k (List.mem_filter.mp hk).2

theorem leaves_removeCounted {under : StoreKey → Bool} {type : KeyType} (ht : Tolerates P key type)
    (hu : ∀ k, under k = true → k.owner = some key ∧ k.dataType = some type) (size : Int) :
    Leaves P (removeCounted under size) := by
  refine keeps_bind (leaves_removeAll fun k hk s hs => ?_) fun count => ?_
  · exact ht.del s k (hu k hk).1 (hu k hk).2 hs
  split
  · exact keeps_throw (by decide)
  · exact keeps_pure _

/-- The contents of a key that is no lease. -/
theorem leaves_removeContents {keyInfo : KeyDescriptor}
    (ht : Tolerates P key keyInfo.keyType) (hne : keyInfo.keyType ≠ .kLease) :
    Leaves P (removeContents key keyInfo) := by
  unfold removeContents
  split <;> rename_i htype
  · rw [htype] at ht
    exact keeps_bind (leaves_mustExist _) fun _ => leaves_del ht rfl rfl
  · exact leaves_removeCounted ht (fun k hk => owner_of_isField hk) _
  · exact leaves_removeCounted ht (fun k hk => owner_of_isField hk) _
  · exact leaves_removeCounted ht (fun k hk => owner_of_isField hk) _
  · exact leaves_removeCounted ht (fun k hk => owner_of_isField hk) _
  · rw [htype] at ht
    refine leaves_assertThat (by decide) fun _ => ?_
    refine keeps_bind (leaves_removeCounted ht (fun k hk => owner_of_isLocalityField hk) _) fun _ => ?_
    exact leaves_removeCounted ht (fun k hk => owner_of_isLocalityIndex hk) _
  · exact absurd htype hne
  · exact keeps_throw (by decide)

end

/-! ## Leases -/

/-- The end of a lease on a key does not matter. -/
structure Loses (P : StagingArea → Prop) (key : Bytes) : Prop where
  del : ∀ s k, k.owner = some key → k.dataType = some .kLease → P s → P (s.delIn k)
  forget : ∀ s, P s → P (s.delIn (.descriptor key))

theorem Tolerates.loses {P : StagingArea → Prop} {key : Bytes} (h : Tolerates P key .kLease) :
    Loses P key :=
  ⟨h.del, h.forget⟩

/-- A property does not look at the clock, nor at what is cached of the leases. -/
structure Aloof (P : StagingArea → Prop) : Prop where
  cache : ∀ s cache, P s → P { s with expirationCache := cache }
  clock : ∀ s value, P s → P (s.putIn .clock value)
  release : ∀ key s, P s → Fits s.store key .kLease → Loses P key

section

variable {P : StagingArea → Prop} {key : Bytes}

theorem keeps_cacheRemove (h : Aloof P) (deadline : UInt64) :
    Keeps P (fun _ => True) (cacheRemove deadline key) := by
  refine keeps_get fun s hs => ?_
  split
  · intro _ _
    rw [yields_set]
    exact h.cache s _ hs
  · exact keeps_throw trivial

theorem keeps_cacheInsert (h : Aloof P) (deadline : UInt64) :
    Keeps P (fun _ => True) (cacheInsert deadline key) := by
  refine keeps_get fun s hs => ?_
  refine keeps_lift (fun _ _ => trivial) fun _ _ s' _ => ?_
  rw [yields_set]
  exact h.cache s _ hs

theorem keeps_leaseRelease (h : Aloof P) (key : Bytes) :
    Keeps P (fun _ => True) (leaseRelease key) := by
  refine keeps_withOperation (fun _ _ => trivial) (h.release key) fun op hk ht hl => ?_
  have hforget : ∀ force, Keeps P (fun _ => True) (op.finalize 0 force) := by
    intro force
    unfold WriteOperation.finalize
    refine keeps_bind ((leaves_assertWritable op).weaken fun _ _ => trivial) fun _ => ?_
    rw [if_neg (by omega), if_pos ⟨rfl, by rw [ht]; nofun⟩, hk]
    exact fun s hs => hl.forget s hs
  dsimp only
  split
  · exact keeps_bind (hforget false) fun _ => keeps_pure _
  refine keeps_bind ((leaves_mustExist _).weaken fun _ _ => trivial) fun _ => ?_
  refine keeps_bind (keeps_cacheRemove h _) fun _ => ?_
  refine keeps_bind (fun s hs => hl.del s _ rfl rfl hs) fun _ => ?_
  refine keeps_bind ((leaves_mustExist _).weaken fun _ _ => trivial) fun _ => ?_
  refine keeps_bind (fun s hs => hl.del s _ rfl rfl hs) fun _ => ?_
  exact keeps_bind (hforget false) fun _ => keeps_pure _

theorem keeps_releaseExpired (h : Aloof P) (newValue : UInt64) (fuel : Nat) :
    Keeps P (fun _ => True) (releaseExpired fuel newValue) := by
  induction fuel with
  | zero => exact keeps_pure _
  | succ fuel ih =>
    refine keeps_get fun s _ => ?_
    split
    · exact keeps_pure _
    split
    · refine keeps_bind (keeps_leaseRelease h _) fun st => ?_
      exact keeps_lift (fun _ _ => trivial) fun _ _ => ih
    · exact keeps_pure _

theorem keeps_getClock : Keeps P (fun _ => True) getClock := by
  refine keeps_bind ((leaves_get _).weaken fun _ _ => trivial) fun found => ?_
  split
  · exact keeps_throw trivial
  · dsimp only
    split
    · exact keeps_throw_bind trivial
    · exact keeps_pure _

theorem keeps_maybeAdvanceClock (h : Aloof P) (clockUpdate : UInt64) :
    Keeps P (fun _ => True) (maybeAdvanceClock clockUpdate) := by
  refine keeps_bind keeps_getClock fun currentClock => ?_
  split
  · refine keeps_bind ?_ fun _ => keeps_pure _
    unfold advanceClock
    refine keeps_bind keeps_getClock fun prevValue => ?_
    dsimp only
    split
    · exact keeps_throw_bind trivial
    refine keeps_get fun s _ => ?_
    refine keeps_bind (keeps_releaseExpired h _ _) fun _ => ?_
    exact fun s hs => h.clock s _ hs
  · exact keeps_pure _

theorem keeps_lease_release (h : Aloof P) (key : Bytes) (clockUpdate : UInt64) :
    Keeps P (fun _ => True) (lease_release key clockUpdate) := by
  unfold lease_release
  dsimp only
  split
  · exact keeps_bind (keeps_maybeAdvanceClock h _) fun _ => keeps_leaseRelease h key
  · exact keeps_leaseRelease h key

theorem keeps_lease_get (h : Aloof P) (key : Bytes) (clockUpdate : UInt64) :
    Keeps P (fun _ => True) (lease_get key clockUpdate) := by
  refine keeps_bind (keeps_maybeAdvanceClock h _) fun _ => ?_
  refine keeps_bind ((leaves_getKeyDescriptor key).weaken fun _ _ => trivial) fun keyinfo => ?_
  split
  · exact keeps_pure _
  split
  · exact keeps_pure _
  refine keeps_bind ((leaves_get _).weaken fun _ _ => trivial) fun found => ?_
  split
  · exact keeps_throw trivial
  · exact keeps_pure _

theorem keeps_lease_acquire (h : Aloof P) (hg : Gated P key .kLease) (value : Bytes)
    (clockUpdate duration : UInt64) :
    Keeps P (fun _ => True) (lease_acquire key value clockUpdate duration) := by
  refine keeps_lift (fun _ _ => trivial) fun _ _ => ?_
  refine keeps_bind (keeps_maybeAdvanceClock h _) fun now => ?_
  refine keeps_withOperation (fun _ _ => trivial) hg fun op hk ht htol => ?_
  refine keeps_bind ((leaves_get _).weaken fun _ _ => trivial) fun oldLeaseHolder => ?_
  dsimp only
  split
  · exact keeps_pure _
  have hgrant : ∀ op' : WriteOperation, Opens P op' → ∀ st : LeaseAcquisitionStatus,
      Keeps P (fun _ => True) (do
        cacheInsert (now + duration) key
        put (.expirationEvent (now + duration) key) (ascii "1")
        op'.write value
        op'.finalize value.length true
        return (st, value, now + duration) : StagingM _) := by
    intro op' ho st
    refine keeps_bind (keeps_cacheInsert h _) fun _ => ?_
    refine keeps_bind (fun s hs => htol.put s _ _ rfl rfl hs) fun _ => ?_
    refine keeps_bind ((leaves_write ho value).weaken fun _ _ => trivial) fun _ => ?_
    exact keeps_bind ((leaves_finalize ho _ _).weaken fun _ _ => trivial) fun _ => keeps_pure _
  let granted : WriteOperation :=
    { op with keyinfo := { op.keyinfo with startIndex := now, endIndex := now + duration } }
  have ho : Opens P granted := opens_of hk ht htol
  split
  · refine keeps_bind (keeps_cacheRemove h _) fun _ => ?_
    refine keeps_bind ((leaves_mustExist _).weaken fun _ _ => trivial) fun _ => ?_
    refine keeps_bind (fun s hs => htol.del s _ rfl rfl hs) fun _ => ?_
    exact hgrant granted ho .kRenewed
  · exact hgrant granted ho .kAcquired

/-- A key of any type is removed. -/
theorem keeps_removeKey (h : Aloof P) {keyInfo : KeyDescriptor}
    (ht : Tolerates P key keyInfo.keyType) :
    Keeps P (fun _ => True) (removeContents key keyInfo) := by
  by_cases hl : keyInfo.keyType = .kLease
  · unfold removeContents
    rw [hl]
    refine keeps_bind (keeps_leaseRelease h key) fun st => ?_
    split
    · exact keeps_throw trivial
    · exact keeps_pure _
  · exact (leaves_removeContents ht hl).weaken fun _ _ => trivial

theorem keeps_delKeys (h : Aloof P) {keys : List Bytes}
    (ht : ∀ key ∈ keys, ∀ type, Tolerates P key type) :
    Keeps P (fun _ => True) (delKeys keys) := by
  induction keys with
  | nil => exact keeps_pure _
  | cons key rest ih =>
    have hrest := ih fun key' hk => ht key' (List.mem_cons_of_mem key hk)
    refine keeps_bind ((leaves_getKeyDescriptor key).weaken fun _ _ => trivial) fun keyInfo => ?_
    split
    · exact hrest
    refine keeps_bind (keeps_removeKey h (ht key List.mem_cons_self _)) fun _ => ?_
    refine keeps_bind (fun s hs => (ht key List.mem_cons_self .kNull).forget s hs) fun _ => ?_
    exact keeps_bind hrest fun _ => keeps_pure _

end

/-! ## Requests -/

/-- Every third argument, from the first on. -/
def everyThird : List Bytes → List Bytes
  | key :: _ :: _ :: rest => key :: everyThird rest
  | _ => []

/-- The redis keys that a request may change. FLUSHALL changes all of them, and a lease
request those of the leases that expire. -/
def keysOf (request : RedisRequest) : List Bytes :=
  match getCommand request, request.tail with
  | .DEL, keys => keys
  | .SMOVE, source :: destination :: _ => [source, destination]
  | .HCLONE, _ :: target :: _ => [target]
  | .HINCRBYMULTI, args => everyThird args
  | .LHSET_AND_DEL_FALLBACK, [key, _, _, _, fallback] => [key, fallback]
  | .LHDEL_WITH_FALLBACK, [key, _, fallback] => [key, fallback]
  | .CONVERT_HASH_FIELD_TO_LHASH, key :: _ :: destKey :: _ => [key, destKey]
  | .CONFIG_SET, _ => []
  | _, key :: _ => [key]
  | _, [] => []

/-- The requests that may change leases. -/
def mayEndLeases (request : RedisRequest) : Bool :=
  match getCommand request with
  | .FLUSHALL | .DEL | .TIMESTAMPED_LEASE_ACQUIRE | .TIMESTAMPED_LEASE_GET
  | .TIMESTAMPED_LEASE_RELEASE => true
  | _ => false

section

variable {P : StagingArea → Prop}

theorem leaves_reply {α : Type} {c : StagingM α} {reply : α → Bytes} (h : Leaves P c) :
    Leaves P (do return reply (← c)) :=
  keeps_bind h fun _ => keeps_pure _

theorem leaves_hincrbyLoop {args : List Bytes} (hg : ∀ key ∈ everyThird args, Gated P key .kHash) :
    Leaves P (hincrbyLoop args) := by
  induction args using hincrbyLoop.induct with
  | case1 key field incrby rest ih =>
    unfold hincrbyLoop
    refine keeps_bind (leaves_increment (hg key List.mem_cons_self) field incrby) fun result => ?_
    refine keeps_bind (ih fun key' hk => hg key' (List.mem_cons_of_mem key hk)) fun ret => ?_
    exact keeps_pure _
  | case2 args hne =>
    unfold hincrbyLoop
    split
    · exact (hne _ _ _ _ rfl).elim
    · exact keeps_pure _

theorem leaves_convertHashFieldToLhash {key destKey : Bytes} (hk : Gated P key .kHash)
    (hd : Gated P destKey .kLocalityHash) (field destField destHint : Bytes) :
    Leaves P (convertHashFieldToLhash key field destKey destField destHint) := by
  refine keeps_bind (leaves_lhget _ _) fun r1 => ?_
  dsimp only
  split
  · exact keeps_pure _
  refine keeps_bind (leaves_hget _) fun r2 => ?_
  split
  · exact keeps_pure _
  refine keeps_bind (leaves_lhset hd _ _ _) fun r3 => ?_
  split
  · exact keeps_pure _
  split
  · exact keeps_throw (by decide)
  refine keeps_bind (leaves_deleteFields hk [field]) fun r4 => ?_
  split
  · exact keeps_throw_bind (by decide)
  · exact leaves_assertThat (by decide) fun _ => keeps_pure _

theorem leaves_artificiallySlowWrite (sleep : Bytes) :
    Leaves P (artificiallySlowWriteNeverUseThis sleep) := by
  unfold artificiallySlowWriteNeverUseThis
  split
  · exact keeps_pure _
  · split <;> exact keeps_pure _

/-- A command that can not end a lease changes its own keys, or the configuration. -/
theorem leaves_dispatchCommand (doubles : Doubles) {request : RedisRequest}
    (hl : mayEndLeases request = false)
    (hg : ∀ key ∈ keysOf request, ∀ type, type ≠ .kLease → Gated P key type)
    (hconf : ∀ s key value, P s → P (s.putIn (.configuration key) value)) :
    Leaves P (dispatchCommand doubles request) := by
  unfold mayEndLeases at hl
  unfold dispatchCommand
  dsimp only
  split
  · rename_i hc _
    rw [hc] at hl
    cases hl
  · rename_i hc _
    rw [hc] at hl
    cases hl
  · rename_i key value hc ht
    simp only [keysOf, hc, ht] at hg
    exact leaves_reply (leaves_set (hg key (by simp) _ nofun) value)
  · exact keeps_pure _
  · rename_i hc _
    rw [hc] at hl
    cases hl
  · rename_i hc _
    rw [hc] at hl
    cases hl
  · rename_i key field value hc ht
    simp only [keysOf, hc, ht] at hg
    exact leaves_reply (leaves_hset (hg key (by simp) _ nofun) field value)
  · exact keeps_pure _
  · rename_i key field value hc ht
    simp only [keysOf, hc, ht] at hg
    exact leaves_reply (leaves_hsetnx (hg key (by simp) _ nofun) field value)
  · exact keeps_pure _
  · rename_i key args hc ht
    simp only [keysOf, hc, ht] at hg
    split
    · exact keeps_pure _
    · exact leaves_reply (leaves_hmset (hg key (by simp) _ nofun) args)
  · exact keeps_pure _
  · rename_i key field incrby hc ht
    simp only [keysOf, hc, ht] at hg
    exact leaves_reply (leaves_increment (hg key (by simp) _ nofun) field incrby)
  · exact keeps_pure _
  · rename_i hc
    simp only [keysOf, hc] at hg
    split
    · exact keeps_pure _
    · exact leaves_reply (leaves_hincrbyLoop fun key hk => hg key hk _ nofun)
  · rename_i key field incrby hc ht
    simp only [keysOf, hc, ht] at hg
    exact leaves_reply (leaves_increment (hg key (by simp) _ nofun) field incrby)
  · exact keeps_pure _
  · rename_i key field fields hc ht
    simp only [keysOf, hc, ht] at hg
    exact leaves_reply (leaves_deleteFields (hg key (by simp) .kHash nofun) (field :: fields))
  · exact keeps_pure _
  · rename_i source target hc ht
    simp only [keysOf, hc, ht] at hg
    exact leaves_reply (leaves_hclone (hg target (by simp) _ nofun))
  · exact keeps_pure _
  · rename_i key element elements hc ht
    simp only [keysOf, hc, ht] at hg
    exact leaves_reply (leaves_sadd (hg key (by simp) _ nofun) (element :: elements))
  · exact keeps_pure _
  · rename_i key element elements hc ht
    simp only [keysOf, hc, ht] at hg
    exact leaves_reply (leaves_deleteFields (hg key (by simp) .kSet nofun) (element :: elements))
  · exact keeps_pure _
  · rename_i source destination element hc ht
    simp only [keysOf, hc, ht] at hg
    exact leaves_reply (leaves_smove (hg source (by simp) _ nofun) (hg destination (by simp) _ nofun)
      element)
  · exact keeps_pure _
  · rename_i key item items hc ht
    simp only [keysOf, hc, ht] at hg
    exact leaves_reply (leaves_dequePush (hg key (by simp) _ nofun) .kLeft (item :: items))
  · exact keeps_pure _
  · rename_i key item items hc ht
    simp only [keysOf, hc, ht] at hg
    exact leaves_reply (leaves_dequePush (hg key (by simp) _ nofun) .kRight (item :: items))
  · exact keeps_pure _
  · rename_i key hc ht
    simp only [keysOf, hc, ht] at hg
    exact leaves_reply (leaves_dequePop (hg key (by simp) _ nofun) .kLeft)
  · exact keeps_pure _
  · rename_i key hc ht
    simp only [keysOf, hc, ht] at hg
    exact leaves_reply (leaves_dequePop (hg key (by simp) _ nofun) .kRight)
  · exact keeps_pure _
  · rename_i key maxToKeep hc ht
    simp only [keysOf, hc, ht] at hg
    exact leaves_reply (leaves_dequeTrimFront (hg key (by simp) _ nofun) maxToKeep)
  · exact keeps_pure _
  · rename_i key hc ht
    simp only [keysOf, hc, ht] at hg
    exact leaves_reply (leaves_dequeTrimFront (hg key (by simp) _ nofun) (ascii "0"))
  · exact keeps_pure _
  · rename_i key value hc ht
    simp only [keysOf, hc, ht] at hg
    refine leaves_reply (keeps_bind (fun s hs => ?_) fun _ => keeps_pure _)
    exact hconf s key value hs
  · exact keeps_pure _
  · rename_i key field hint value hc ht
    simp only [keysOf, hc, ht] at hg
    exact leaves_reply (leaves_lhset (hg key (by simp) _ nofun) field hint value)
  · exact keeps_pure _
  · rename_i key field fields hc ht
    simp only [keysOf, hc, ht] at hg
    exact leaves_reply (leaves_lhdel (hg key (by simp) _ nofun) (field :: fields))
  · exact keeps_pure _
  · rename_i key field hint hc ht
    simp only [keysOf, hc, ht] at hg
    exact leaves_reply (leaves_lhlocdel (hg key (by simp) _ nofun) field hint)
  · exact keeps_pure _
  · rename_i key args hc ht
    simp only [keysOf, hc, ht] at hg
    split
    · exact keeps_pure _
    · exact leaves_reply (leaves_lhmset (hg key (by simp) _ nofun) args)
  · exact keeps_pure _
  · rename_i key field hint value fallback hc ht
    simp only [keysOf, hc, ht] at hg
    refine keeps_bind (leaves_reply (leaves_lhset (hg key (by simp) _ nofun) field hint value))
      fun resp => ?_
    exact keeps_bind (leaves_reply (leaves_deleteFields (hg fallback (by simp) .kHash nofun) [field]))
      fun _ => keeps_pure _
  · exact keeps_pure _
  · rename_i key field fallback hc ht
    simp only [keysOf, hc, ht] at hg
    refine keeps_bind (leaves_reply (leaves_lhdel (hg key (by simp) _ nofun) [field])) fun resp => ?_
    split
    · exact leaves_reply (leaves_deleteFields (hg fallback (by simp) .kHash nofun) [field])
    · exact keeps_pure _
  · exact keeps_pure _
  · rename_i key field destKey destField destHint hc ht
    simp only [keysOf, hc, ht] at hg
    exact leaves_convertHashFieldToLhash (hg key (by simp) _ nofun) (hg destKey (by simp) _ nofun)
      field destField destHint
  · exact keeps_pure _
  · rename_i hc _
    rw [hc] at hl
    cases hl
  · rename_i hc _
    rw [hc] at hl
    cases hl
  · rename_i hc _
    rw [hc] at hl
    cases hl
  · rename_i hc _
    rw [hc] at hl
    cases hl
  · rename_i hc _
    rw [hc] at hl
    cases hl
  · rename_i hc _
    rw [hc] at hl
    cases hl
  · rename_i sleep hc ht
    simp only [keysOf, hc, ht] at hg
    exact leaves_reply (leaves_artificiallySlowWrite sleep)
  · exact keeps_pure _
  · rename_i key field value hc ht
    simp only [keysOf, hc, ht] at hg
    exact leaves_reply (leaves_vhset (hg key (by simp) _ nofun) field value)
  · exact keeps_pure _
  · rename_i key field fields hc ht
    simp only [keysOf, hc, ht] at hg
    exact leaves_reply (leaves_vhdel (hg key (by simp) _ nofun) (field :: fields))
  · exact keeps_pure _
  · exact keeps_throw (by decide)

theorem keeps_dispatchLeaseAcquire (h : Aloof P) {key : Bytes} (hg : Gated P key .kLease)
    (value durationStr timestampStr : Bytes) :
    Keeps P (fun _ => True) (dispatchLeaseAcquire key value durationStr timestampStr) := by
  unfold dispatchLeaseAcquire
  dsimp only
  split
  · exact keeps_pure _
  split
  · exact keeps_pure _
  refine keeps_lift (fun _ _ => trivial) fun _ _ => ?_
  refine keeps_bind (keeps_lease_acquire h hg _ _ _) fun result => ?_
  split <;> exact keeps_pure _

theorem keeps_dispatchLeaseGet (h : Aloof P) (key timestampStr : Bytes) :
    Keeps P (fun _ => True) (dispatchLeaseGet key timestampStr) := by
  refine keeps_lift (fun _ _ => trivial) fun _ _ => ?_
  refine keeps_bind (keeps_lease_get h key _) fun result => ?_
  dsimp only
  split
  · exact keeps_pure _
  · exact keeps_lift (fun _ _ => trivial) fun _ _ => keeps_pure _

theorem keeps_dispatchLeaseRelease (h : Aloof P) (key timestampStr : Bytes) :
    Keeps P (fun _ => True) (dispatchLeaseRelease key timestampStr) := by
  refine keeps_lift (fun _ _ => trivial) fun _ _ => ?_
  refine keeps_bind (keeps_lease_release h key _) fun st => ?_
  split <;> exact keeps_pure _

/-- A command other than FLUSHALL changes its own keys, the configuration, and what leases
keep to themselves. -/
theorem keeps_dispatchCommand (doubles : Doubles) {request : RedisRequest} (h : Aloof P)
    (hf : getCommand request ≠ .FLUSHALL)
    (hg : ∀ key ∈ keysOf request, ∀ type, Tolerates P key type)
    (hconf : ∀ s key value, P s → P (s.putIn (.configuration key) value)) :
    Keeps P (fun _ => True) (dispatchCommand doubles request) := by
  by_cases hl : mayEndLeases request = false
  · refine (leaves_dispatchCommand doubles hl (fun key hk type _ => ?_) hconf).weaken
      fun _ _ => trivial
    exact fun _ _ _ => hg key hk type
  unfold mayEndLeases at hl
  unfold dispatchCommand
  split at hl <;> rename_i hc
  · exact absurd hc hf
  · rcases ht : request.tail with _ | ⟨key, keys⟩ <;> rw [hc] <;> dsimp only
    · exact keeps_pure _
    simp only [keysOf, hc, ht] at hg
    exact keeps_bind (keeps_delKeys h hg) fun _ => keeps_pure _
  · rcases ht : request.tail with _ | ⟨key, _ | ⟨value, _ | ⟨duration, _ | ⟨stamp, _ | _⟩⟩⟩⟩ <;>
      rw [hc] <;> dsimp only <;> try exact keeps_pure _
    simp only [keysOf, hc, ht] at hg
    exact keeps_dispatchLeaseAcquire h (fun _ _ _ => hg key List.mem_cons_self _) _ _ _
  · rcases ht : request.tail with _ | ⟨key, _ | ⟨stamp, _ | _⟩⟩ <;>
      rw [hc] <;> dsimp only <;> try exact keeps_pure _
    exact keeps_dispatchLeaseGet h key stamp
  · rcases ht : request.tail with _ | ⟨key, _ | ⟨stamp, _ | _⟩⟩ <;>
      rw [hc] <;> dsimp only <;> try exact keeps_pure _
    exact keeps_dispatchLeaseRelease h key stamp
  · exact absurd rfl hl

end

end quarkdb
