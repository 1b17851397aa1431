-- Two staging areas side by side. A command sees the store, and for versioned hashes the
-- batch and the revisions; on two staging areas that agree on these it does the same.
import QuarkDB.Dispatcher
import QuarkDB.Operations

namespace quarkdb

open Endian StateMachine StagingArea Outcome RedisDispatcher

/-- Related staging areas have the same store, and updates keep them related. -/
structure Congruence (R : StagingArea → StagingArea → Prop) : Prop where
  store : ∀ s s', R s s' → s'.store = s.store
  put : ∀ s s' k value, R s s' → R (s.putIn k value) (s'.putIn k value)
  del : ∀ s s' k, R s s' → R (s.delIn k) (s'.delIn k)

/-- They also have the same batch and the same revisions. -/
structure SameVersions (R : StagingArea → StagingArea → Prop) : Prop where
  batch : ∀ s s', R s s' → s'.batch = s.batch
  tracker : ∀ s s', R s s' → s'.revisionTracker = s.revisionTracker
  revise : ∀ s s' tracker, R s s' →
    R { s with revisionTracker := tracker } { s' with revisionTracker := tracker }

/-- The leases that are cached can be looked up alike, and time can pass. -/
structure SameLeases (R : StagingArea → StagingArea → Prop) : Prop where
  remove : ∀ deadline key, Lockstep R (cacheRemove deadline key)
  insert : ∀ deadline key, Lockstep R (cacheInsert deadline key)
  advance : ∀ clockUpdate, Lockstep R (maybeAdvanceClock clockUpdate)
  clear : ∀ s s', R s s' → R { s with expirationCache := [] } { s' with expirationCache := [] }

section

variable {R : StagingArea → StagingArea → Prop} (h : Congruence R) {α : Type}

/-! ## Steps -/

include h

theorem lockstep_lookup (k : StoreKey) : Lockstep R (StagingArea.get k) := by
  intro s s' hs
  refine ⟨?_, hs⟩
  rw [h.store s s' hs]

theorem lockstep_keyExists (k : StoreKey) : Lockstep R (keyExists k) :=
  lockstep_bind (lockstep_lookup h k) fun _ => lockstep_pure _

theorem lockstep_put (k : StoreKey) (value : Bytes) : Lockstep R (put k value) :=
  lockstep_modify fun s s' hs => h.put s s' k value hs

theorem lockstep_del (k : StoreKey) : Lockstep R (del k) :=
  lockstep_modify fun s s' hs => h.del s s' k hs

omit h in
theorem lockstep_throwing (call : Except Fault α) : Lockstep R (throwing call) :=
  lockstep_lift call

omit h in
theorem lockstep_assertThat (holds : Bool) (condition : String) :
    Lockstep R (assertThat holds condition) :=
  lockstep_lift _

theorem lockstep_mustExist (k : StoreKey) : Lockstep R (mustExist k) := by
  refine lockstep_bind (lockstep_keyExists h k) fun found => ?_
  split
  · exact lockstep_throw _
  · exact lockstep_pure _

theorem lockstep_delAll (keys : List StoreKey) : Lockstep R (delAll keys) := by
  induction keys with
  | nil => exact lockstep_pure _
  | cons k rest ih => exact lockstep_bind (lockstep_del h k) fun _ => ih

theorem lockstep_removeAll (under : StoreKey → Bool) : Lockstep R (removeAll under) := by
  refine lockstep_get fun s s' hs => ?_
  rw [h.store s s' hs]
  exact together_bind (lockstep_delAll h _ s s' hs) fun _ t t' ht => ⟨rfl, ht⟩

theorem lockstep_getKeyDescriptor (key : Bytes) : Lockstep R (getKeyDescriptor key) := by
  refine lockstep_bind (lockstep_lookup h _) fun found => ?_
  split
  · exact lockstep_pure _
  · exact lockstep_throwing _

theorem lockstep_start (key : Bytes) (type : KeyType) :
    Lockstep R (WriteOperation.start key type) := by
  refine lockstep_bind (lockstep_getKeyDescriptor h key) fun keyinfo => ?_
  split <;> exact lockstep_pure _

theorem lockstep_withOperation {key : Bytes} {type : KeyType} {otherwise : α}
    {body : WriteOperation → StagingM α} (hbody : ∀ op, Lockstep R (body op)) :
    Lockstep R (withOperation key type otherwise body) := by
  refine lockstep_bind (lockstep_start h key type) fun op => ?_
  split
  · exact hbody op
  · exact lockstep_pure _

variable (op : WriteOperation)

omit h in
theorem lockstep_assertWritable : Lockstep R op.assertWritable := by
  unfold WriteOperation.assertWritable
  split
  · exact lockstep_throw _
  · exact lockstep_pure _

theorem lockstep_write (value : Bytes) : Lockstep R (op.write value) := by
  refine lockstep_bind (lockstep_assertWritable op) fun _ => ?_
  exact lockstep_bind (lockstep_throwing _) fun k => lockstep_put h k value

theorem lockstep_getField (field : Bytes) : Lockstep R (op.getField field) := by
  refine lockstep_bind (lockstep_assertWritable op) fun _ => ?_
  exact lockstep_bind (lockstep_throwing _) fun k => lockstep_lookup h k

theorem lockstep_fieldExists (field : Bytes) : Lockstep R (op.fieldExists field) := by
  refine lockstep_bind (lockstep_assertWritable op) fun _ => ?_
  exact lockstep_bind (lockstep_throwing _) fun k => lockstep_keyExists h k

theorem lockstep_writeField (field value : Bytes) : Lockstep R (op.writeField field value) := by
  refine lockstep_bind (lockstep_assertWritable op) fun _ => ?_
  exact lockstep_bind (lockstep_throwing _) fun k => lockstep_put h k value

theorem lockstep_deleteKey (k : StoreKey) : Lockstep R (WriteOperation.deleteKey k) := by
  refine lockstep_bind (lockstep_keyExists h k) fun found => ?_
  dsimp only
  split
  · exact lockstep_bind (lockstep_del h k) fun _ => lockstep_pure _
  · exact lockstep_pure _

theorem lockstep_deleteField (field : Bytes) : Lockstep R (op.deleteField field) := by
  refine lockstep_bind (lockstep_assertWritable op) fun _ => ?_
  exact lockstep_bind (lockstep_throwing _) fun k => lockstep_deleteKey h k

omit h in
theorem lockstep_assertLocality : Lockstep R op.assertLocality :=
  lockstep_bind (lockstep_assertWritable op) fun _ => lockstep_assertThat _ _

theorem lockstep_localityFieldExists (hint field : Bytes) :
    Lockstep R (op.localityFieldExists hint field) := by
  refine lockstep_bind (lockstep_assertLocality op) fun _ => ?_
  exact lockstep_bind (lockstep_throwing _) fun k => lockstep_keyExists h k

theorem lockstep_writeLocalityField (hint field value : Bytes) :
    Lockstep R (op.writeLocalityField hint field value) := by
  refine lockstep_bind (lockstep_assertLocality op) fun _ => ?_
  exact lockstep_bind (lockstep_throwing _) fun k => lockstep_put h k value

theorem lockstep_deleteLocalityField (hint field : Bytes) :
    Lockstep R (op.deleteLocalityField hint field) := by
  refine lockstep_bind (lockstep_assertLocality op) fun _ => ?_
  exact lockstep_bind (lockstep_throwing _) fun k => lockstep_deleteKey h k

theorem lockstep_getLocalityIndex (field : Bytes) : Lockstep R (op.getLocalityIndex field) := by
  refine lockstep_bind (lockstep_assertLocality op) fun _ => ?_
  exact lockstep_bind (lockstep_throwing _) fun k => lockstep_lookup h k

theorem lockstep_writeLocalityIndex (field hint : Bytes) :
    Lockstep R (op.writeLocalityIndex field hint) := by
  refine lockstep_bind (lockstep_assertLocality op) fun _ => ?_
  exact lockstep_bind (lockstep_throwing _) fun k => lockstep_put h k hint

theorem lockstep_getAndDeleteLocalityIndex (field : Bytes) :
    Lockstep R (op.getAndDeleteLocalityIndex field) := by
  refine lockstep_bind (lockstep_assertLocality op) fun _ => ?_
  refine lockstep_bind (lockstep_throwing _) fun k => ?_
  refine lockstep_bind (lockstep_lookup h k) fun hint => ?_
  dsimp only
  split
  · exact lockstep_bind (lockstep_del h k) fun _ => lockstep_pure _
  · exact lockstep_pure _

theorem lockstep_finalize (newsize : Int) (force : Bool) :
    Lockstep R (op.finalize newsize force) := by
  refine lockstep_bind (lockstep_assertWritable op) fun _ => ?_
  dsimp only
  split
  · exact lockstep_throw_bind _
  split
  · exact lockstep_del h _
  split
  · exact lockstep_bind (lockstep_throwing _) fun bytes => lockstep_put h _ bytes
  · exact lockstep_pure _

/-! ## Commands on strings, hashes and sets -/

variable (key : Bytes)

theorem lockstep_set (value : Bytes) : Lockstep R (set key value) := by
  refine lockstep_withOperation h fun op => ?_
  refine lockstep_bind (lockstep_write h op value) fun _ => ?_
  exact lockstep_bind (lockstep_finalize h op _ _) fun _ => lockstep_pure _

theorem lockstep_hset (field value : Bytes) : Lockstep R (hset key field value) := by
  refine lockstep_withOperation h fun op => ?_
  refine lockstep_bind (lockstep_fieldExists h op field) fun found => ?_
  refine lockstep_bind (lockstep_writeField h op field value) fun _ => ?_
  exact lockstep_bind (lockstep_finalize h op _ _) fun _ => lockstep_pure _

theorem lockstep_hmsetLoop (newsize : Int) (args : List Bytes) :
    Lockstep R (hmsetLoop op newsize args) := by
  induction newsize, args using hmsetLoop.induct with
  | case1 newsize field value rest ih =>
    unfold hmsetLoop
    refine lockstep_bind (lockstep_fieldExists h op field) fun found => ?_
    exact lockstep_bind (lockstep_writeField h op field value) fun _ => ih found
  | case2 newsize args hne =>
    unfold hmsetLoop
    split
    · exact (hne _ _ _ rfl).elim
    · exact lockstep_pure _

theorem lockstep_hmset (args : List Bytes) : Lockstep R (hmset key args) := by
  unfold hmset
  dsimp only
  split
  · exact lockstep_throw_bind _
  refine lockstep_withOperation h fun op => ?_
  refine lockstep_bind (lockstep_hmsetLoop h op _ args) fun newsize => ?_
  exact lockstep_bind (lockstep_finalize h op _ _) fun _ => lockstep_pure _

theorem lockstep_hsetnx (field value : Bytes) : Lockstep R (hsetnx key field value) := by
  refine lockstep_withOperation h fun op => ?_
  refine lockstep_bind (lockstep_fieldExists h op field) fun found => ?_
  dsimp only
  split
  · refine lockstep_bind (lockstep_writeField h op field value) fun _ => ?_
    exact lockstep_bind (lockstep_finalize h op _ _) fun _ => lockstep_pure _
  · exact lockstep_bind (lockstep_finalize h op _ _) fun _ => lockstep_pure _

theorem lockstep_increment {ν : Type} {parse : Bytes → Option ν} {readStart : Bytes → ν}
    {add : ν → ν → ν} {zero : ν} {toBytes : ν → Bytes} {malformedArg malformedValue : String}
    (field incrby : Bytes) :
    Lockstep R (increment parse readStart add zero toBytes malformedArg malformedValue key field
      incrby) := by
  unfold increment
  split
  · exact lockstep_pure _
  refine lockstep_withOperation h fun op => ?_
  refine lockstep_bind (lockstep_getField h op field) fun value => ?_
  dsimp only
  split
  · exact lockstep_bind (lockstep_finalize h op _ _) fun _ => lockstep_pure _
  · refine lockstep_bind (lockstep_writeField h op field _) fun _ => ?_
    exact lockstep_bind (lockstep_finalize h op _ _) fun _ => lockstep_pure _

theorem lockstep_deleteLoop (fields : List Bytes) : Lockstep R (deleteLoop op fields) := by
  induction fields with
  | nil => exact lockstep_pure _
  | cons field rest ih =>
    refine lockstep_bind (lockstep_deleteField h op field) fun found => ?_
    exact lockstep_bind ih fun removed => lockstep_pure _

theorem lockstep_deleteFields (type : KeyType) (fields : List Bytes) :
    Lockstep R (deleteFields type key fields) := by
  refine lockstep_withOperation h fun op => ?_
  refine lockstep_bind (lockstep_deleteLoop h op fields) fun removed => ?_
  exact lockstep_bind (lockstep_finalize h op _ _) fun _ => lockstep_pure _

theorem lockstep_writeAll (fields : List (Bytes × Bytes)) : Lockstep R (writeAll op fields) := by
  induction fields with
  | nil => exact lockstep_pure _
  | cons e rest ih => exact lockstep_bind (lockstep_writeField h op e.1 e.2) fun _ => ih

theorem lockstep_hclone (source target : Bytes) : Lockstep R (hclone source target) := by
  refine lockstep_withOperation h fun op => ?_
  dsimp only
  split
  · exact lockstep_pure _
  refine lockstep_bind (lockstep_getKeyDescriptor h source) fun sourceKeyInfo => ?_
  split
  · exact lockstep_pure _
  split
  · exact lockstep_pure _
  refine lockstep_get fun s s' hs => ?_
  rw [h.store s s' hs]
  refine together_bind (lockstep_writeAll h op _ s s' hs) fun _ t t' ht => ?_
  refine together_bind (lockstep_assertThat _ _ t t' ht) fun _ t t' ht => ?_
  exact together_bind (lockstep_finalize h op _ _ t t' ht) fun _ t t' ht => ⟨rfl, ht⟩

theorem lockstep_saddLoop (elements : List Bytes) : Lockstep R (saddLoop op elements) := by
  induction elements with
  | nil => exact lockstep_pure _
  | cons element rest ih =>
    refine lockstep_bind (lockstep_fieldExists h op element) fun found => ?_
    dsimp only
    split
    · refine lockstep_bind (lockstep_writeField h op element _) fun _ => ?_
      exact lockstep_bind ih fun added => lockstep_pure _
    · exact lockstep_bind ih fun added => lockstep_pure _

theorem lockstep_sadd (elements : List Bytes) : Lockstep R (sadd key elements) := by
  refine lockstep_withOperation h fun op => ?_
  refine lockstep_bind (lockstep_saddLoop h op elements) fun added => ?_
  exact lockstep_bind (lockstep_finalize h op _ _) fun _ => lockstep_pure _

theorem lockstep_smove (source destination element : Bytes) :
    Lockstep R (smove source destination element) := by
  refine lockstep_withOperation h fun op1 => ?_
  refine lockstep_bind (lockstep_start h _ _) fun op2 => ?_
  split
  · exact lockstep_bind (lockstep_finalize h op1 _ _) fun _ => lockstep_pure _
  refine lockstep_bind (lockstep_deleteField h op1 element) fun found => ?_
  split
  · refine lockstep_bind (lockstep_finalize h op1 _ _) fun _ => ?_
    refine lockstep_bind (lockstep_fieldExists h op2 element) fun there => ?_
    dsimp only
    split
    · exact lockstep_bind (lockstep_finalize h op2 _ _) fun _ => lockstep_pure _
    · refine lockstep_bind (lockstep_writeField h op2 element _) fun _ => ?_
      exact lockstep_bind (lockstep_finalize h op2 _ _) fun _ => lockstep_pure _
  · refine lockstep_bind (lockstep_finalize h op1 _ _) fun _ => ?_
    exact lockstep_bind (lockstep_finalize h op2 _ _) fun _ => lockstep_pure _

/-! ## Commands on deques -/

theorem lockstep_pushLoop (direction : Direction) (listIndex : UInt64) (itemsAdded : Nat)
    (items : List Bytes) : Lockstep R (pushLoop op direction listIndex itemsAdded items) := by
  induction items generalizing itemsAdded with
  | nil => exact lockstep_pure _
  | cons item rest ih =>
    exact lockstep_bind (lockstep_writeField h op _ item) fun _ => ih (itemsAdded + 1)

theorem lockstep_dequePush (direction : Direction) (items : List Bytes) :
    Lockstep R (dequePush direction key items) := by
  refine lockstep_withOperation h fun op => ?_
  dsimp only
  refine lockstep_bind (lockstep_pushLoop h op direction _ 0 items) fun _ => ?_
  exact lockstep_bind (lockstep_finalize h _ _ _) fun _ => lockstep_pure _

theorem lockstep_dequePop (direction : Direction) : Lockstep R (dequePop direction key) := by
  refine lockstep_withOperation h fun op => ?_
  split
  · exact lockstep_bind (lockstep_finalize h op _ _) fun _ => lockstep_pure _
  dsimp only
  refine lockstep_bind (lockstep_getField h op _) fun found => ?_
  split
  · exact lockstep_throw _
  refine lockstep_bind (lockstep_deleteField h op _) fun deleted => ?_
  refine lockstep_bind (lockstep_assertThat _ _) fun _ => ?_
  exact lockstep_bind (lockstep_finalize h _ _ _) fun _ => lockstep_pure _

theorem lockstep_trimLoop (toRemove : Nat) (nextToEliminate : UInt64) :
    Lockstep R (trimLoop op toRemove nextToEliminate) := by
  induction toRemove generalizing nextToEliminate with
  | zero => exact lockstep_pure _
  | succ toRemove ih =>
    refine lockstep_bind (lockstep_deleteField h op _) fun deleted => ?_
    exact lockstep_bind (lockstep_assertThat _ _) fun _ => ih (nextToEliminate + 1)

theorem lockstep_dequeTrimFront (maxToKeepStr : Bytes) :
    Lockstep R (dequeTrimFront key maxToKeepStr) := by
  unfold dequeTrimFront
  split
  · exact lockstep_pure _
  split
  · exact lockstep_pure _
  refine lockstep_withOperation h fun op => ?_
  dsimp only
  split
  · exact lockstep_pure _
  refine lockstep_bind (lockstep_trimLoop h op _ _) fun _ => ?_
  refine lockstep_bind (lockstep_assertThat _ _) fun _ => ?_
  exact lockstep_bind (lockstep_finalize h _ _ _) fun _ => lockstep_pure _

/-! ## Commands on locality hashes -/

theorem lockstep_lhsetInternal (field hint value : Bytes) :
    Lockstep R (lhsetInternal op field hint value) := by
  have hwrite : ∀ created : Bool, Lockstep R (do
      op.writeLocalityField hint field value
      op.writeLocalityIndex field hint
      return created) := by
    intro created
    refine lockstep_bind (lockstep_writeLocalityField h op hint field value) fun _ => ?_
    exact lockstep_bind (lockstep_writeLocalityIndex h op field hint) fun _ => lockstep_pure _
  refine lockstep_bind (lockstep_localityFieldExists h op hint field) fun found => ?_
  split
  · exact lockstep_bind (lockstep_writeLocalityField h op hint field value) fun _ =>
      lockstep_pure _
  refine lockstep_bind (lockstep_getLocalityIndex h op field) fun previous => ?_
  split
  · refine lockstep_bind (lockstep_deleteLocalityField h op _ field) fun deleted => ?_
    exact lockstep_bind (lockstep_assertThat _ _) fun _ => hwrite false
  · exact hwrite true

theorem lockstep_lhmsetLoop (args : List Bytes) : Lockstep R (lhmsetLoop op args) := by
  induction args using lhmsetLoop.induct with
  | case1 field hint value rest ih =>
    unfold lhmsetLoop
    refine lockstep_bind (lockstep_lhsetInternal h op field hint value) fun fieldcreated => ?_
    exact lockstep_bind ih fun created => lockstep_pure _
  | case2 args hne =>
    unfold lhmsetLoop
    split
    · exact (hne _ _ _ _ rfl).elim
    · exact lockstep_pure _

theorem lockstep_lhmset (args : List Bytes) : Lockstep R (lhmset key args) := by
  unfold lhmset
  dsimp only
  split
  · exact lockstep_throw_bind _
  refine lockstep_withOperation h fun op => ?_
  refine lockstep_bind (lockstep_lhmsetLoop h op args) fun created => ?_
  exact lockstep_bind (lockstep_finalize h op _ _) fun _ => lockstep_pure _

theorem lockstep_lhset (field hint value : Bytes) : Lockstep R (lhset key field hint value) := by
  refine lockstep_withOperation h fun op => ?_
  refine lockstep_bind (lockstep_lhsetInternal h op field hint value) fun fieldcreated => ?_
  exact lockstep_bind (lockstep_finalize h op _ _) fun _ => lockstep_pure _

theorem lockstep_lhdelLoop (fields : List Bytes) : Lockstep R (lhdelLoop op fields) := by
  induction fields with
  | nil => exact lockstep_pure _
  | cons field rest ih =>
    refine lockstep_bind (lockstep_getAndDeleteLocalityIndex h op field) fun hint => ?_
    dsimp only
    split
    · exact lockstep_bind ih fun removed => lockstep_pure _
    · refine lockstep_bind (lockstep_deleteLocalityField h op _ field) fun deleted => ?_
      refine lockstep_bind (lockstep_assertThat _ _) fun _ => ?_
      exact lockstep_bind ih fun removed => lockstep_pure _

theorem lockstep_lhdel (fields : List Bytes) : Lockstep R (lhdel key fields) := by
  refine lockstep_withOperation h fun op => ?_
  refine lockstep_bind (lockstep_lhdelLoop h op fields) fun removed => ?_
  exact lockstep_bind (lockstep_finalize h op _ _) fun _ => lockstep_pure _

theorem lockstep_assertKeyType (type : KeyType) : Lockstep R (assertKeyType key type) :=
  lockstep_bind (lockstep_getKeyDescriptor h key) fun _ => lockstep_pure _

theorem lockstep_lhlocdel (field hint : Bytes) : Lockstep R (lhlocdel key field hint) := by
  refine lockstep_bind (lockstep_assertKeyType h key _) fun right => ?_
  split
  · exact lockstep_pure _
  refine lockstep_bind (lockstep_throwing _) fun k => ?_
  refine lockstep_bind (lockstep_keyExists h k) fun found => ?_
  split
  · refine lockstep_bind (lockstep_lhdel h key [field]) fun result => ?_
    exact lockstep_bind (lockstep_assertThat _ _) fun _ => lockstep_pure _
  · exact lockstep_pure _

theorem lockstep_hget (field : Bytes) : Lockstep R (hget key field) := by
  refine lockstep_bind (lockstep_assertKeyType h key _) fun right => ?_
  split
  · exact lockstep_pure _
  refine lockstep_bind (lockstep_lookup h _) fun found => ?_
  split <;> exact lockstep_pure _

/-- What the index leads to. -/
theorem lockstep_lhgetByIndex (field hint : Bytes) : Lockstep R (do
    match ← StagingArea.get (← throwing (localityIndexKey key field)) with
    | none => return (Status.NotFound, [])
    | some correctHint =>
      if !hint.isEmpty then assertThat (hint ≠ correctHint) "hint != correctHint"
      match ← StagingArea.get (← throwing (localityFieldKey key correctHint field)) with
      | some value => return (.OK, value)
      | none => throw (.thrown "NotFound: ") : StagingM (Status × Bytes)) := by
  refine lockstep_bind (lockstep_throwing _) fun k => ?_
  refine lockstep_bind (lockstep_lookup h k) fun found => ?_
  split
  · exact lockstep_pure _
  rename_i correctHint
  have hlast : Lockstep R (do
      match ← StagingArea.get (← throwing (localityFieldKey key correctHint field)) with
      | some value => return (Status.OK, value)
      | none => throw (.thrown "NotFound: ") : StagingM (Status × Bytes)) := by
    refine lockstep_bind (lockstep_throwing _) fun k => ?_
    refine lockstep_bind (lockstep_lookup h k) fun found => ?_
    split
    · exact lockstep_pure _
    · exact lockstep_throw _
  dsimp only
  split
  · exact lockstep_bind (lockstep_assertThat _ _) fun _ => hlast
  · exact hlast

theorem lockstep_lhget (field hint : Bytes) : Lockstep R (lhget key field hint) := by
  refine lockstep_bind (lockstep_assertKeyType h key _) fun right => ?_
  split
  · exact lockstep_pure _
  dsimp only
  split
  · exact lockstep_lhgetByIndex h key field hint
  refine lockstep_bind (lockstep_throwing _) fun k => ?_
  refine lockstep_bind (lockstep_lookup h k) fun direct => ?_
  split
  · exact lockstep_pure _
  · exact lockstep_lhgetByIndex h key field hint

/-! ## Commands on versioned hashes -/

variable (hv : SameVersions R)

include hv

omit h in
theorem lockstep_updateRevision (update : VersionedHashRevision → VersionedHashRevision) :
    Lockstep R (updateRevision key update) := by
  refine lockstep_modify fun s s' hs => ?_
  rw [hv.tracker s s' hs]
  exact hv.revise s s' _ hs

omit h in
theorem lockstep_setRevisionNumber (rev : UInt64) : Lockstep R (setRevisionNumber key rev) := by
  refine lockstep_get fun s s' hs => ?_
  rw [hv.tracker s s' hs]
  split
  · exact lockstep_assertThat _ _ s s' hs
  · exact lockstep_updateRevision key hv _ s s' hs

omit h in
theorem lockstep_nextVersion (changed : Bool) : Lockstep R (nextVersion op changed) := by
  have hin : Lockstep R (inWriteBatch (.descriptor op.redisKey)) := by
    refine lockstep_get fun s s' hs => ?_
    rw [hv.batch s s' hs]
    exact ⟨rfl, hs⟩
  refine lockstep_bind hin fun modified => ?_
  split <;> exact lockstep_pure _

theorem lockstep_vhset (field value : Bytes) : Lockstep R (vhset key field value) := by
  refine lockstep_withOperation h fun op => ?_
  refine lockstep_bind (lockstep_fieldExists h op field) fun found => ?_
  refine lockstep_bind (lockstep_writeField h op field value) fun _ => ?_
  refine lockstep_bind (lockstep_nextVersion op hv _) fun version => ?_
  refine lockstep_bind (lockstep_setRevisionNumber key hv version) fun _ => ?_
  refine lockstep_bind (lockstep_updateRevision key hv _) fun _ => ?_
  exact lockstep_bind (lockstep_finalize h _ _ _) fun _ => lockstep_pure _

theorem lockstep_vhdel (fields : List Bytes) : Lockstep R (vhdel key fields) := by
  refine lockstep_withOperation h fun op => ?_
  refine lockstep_bind (lockstep_deleteLoop h op fields) fun removed => ?_
  refine lockstep_bind (lockstep_updateRevision key hv _) fun _ => ?_
  refine lockstep_bind (lockstep_nextVersion op hv _) fun version => ?_
  refine lockstep_bind (lockstep_setRevisionNumber key hv version) fun _ => ?_
  exact lockstep_bind (lockstep_finalize h _ _ _) fun _ => lockstep_pure _

omit hv

/-! ## Leases -/

variable (hl : SameLeases R)

include hl

theorem lockstep_leaseRelease : Lockstep R (leaseRelease key) := by
  refine lockstep_withOperation h fun op => ?_
  dsimp only
  split
  · exact lockstep_bind (lockstep_finalize h op _ _) fun _ => lockstep_pure _
  refine lockstep_bind (lockstep_mustExist h _) fun _ => ?_
  refine lockstep_bind (hl.remove _ _) fun _ => ?_
  refine lockstep_bind (lockstep_del h _) fun _ => ?_
  refine lockstep_bind (lockstep_mustExist h _) fun _ => ?_
  refine lockstep_bind (lockstep_del h _) fun _ => ?_
  exact lockstep_bind (lockstep_finalize h op _ _) fun _ => lockstep_pure _

theorem lockstep_lease_release (clockUpdate : UInt64) :
    Lockstep R (lease_release key clockUpdate) := by
  unfold lease_release
  dsimp only
  split
  · exact lockstep_bind (hl.advance _) fun _ => lockstep_leaseRelease h key hl
  · exact lockstep_leaseRelease h key hl

theorem lockstep_lease_get (clockUpdate : UInt64) : Lockstep R (lease_get key clockUpdate) := by
  refine lockstep_bind (hl.advance _) fun _ => ?_
  refine lockstep_bind (lockstep_getKeyDescriptor h key) fun keyinfo => ?_
  split
  · exact lockstep_pure _
  split
  · exact lockstep_pure _
  refine lockstep_bind (lockstep_lookup h _) fun found => ?_
  split
  · exact lockstep_throw _
  · exact lockstep_pure _

theorem lockstep_lease_acquire (value : Bytes) (clockUpdate duration : UInt64) :
    Lockstep R (lease_acquire key value clockUpdate duration) := by
  refine lockstep_bind (lockstep_assertThat _ _) fun _ => ?_
  refine lockstep_bind (hl.advance _) fun now => ?_
  refine lockstep_withOperation h fun op => ?_
  refine lockstep_bind (lockstep_lookup h _) fun oldLeaseHolder => ?_
  dsimp only
  split
  · exact lockstep_pure _
  have hgrant : ∀ (op' : WriteOperation) (st : LeaseAcquisitionStatus), Lockstep R (do
      cacheInsert (now + duration) key
      put (.expirationEvent (now + duration) key) (ascii "1")
      op'.write value
      op'.finalize value.length true
      return (st, value, now + duration)) := by
    intro op' st
    refine lockstep_bind (hl.insert _ _) fun _ => ?_
    refine lockstep_bind (lockstep_put h _ _) fun _ => ?_
    refine lockstep_bind (lockstep_write h op' value) fun _ => ?_
    exact lockstep_bind (lockstep_finalize h op' _ _) fun _ => lockstep_pure _
  let granted : WriteOperation :=
    { op with keyinfo := { op.keyinfo with startIndex := now, endIndex := now + duration } }
  split
  · refine lockstep_bind (hl.remove _ _) fun _ => ?_
    refine lockstep_bind (lockstep_mustExist h _) fun _ => ?_
    exact lockstep_bind (lockstep_del h _) fun _ => hgrant granted .kRenewed
  · exact hgrant granted .kAcquired

/-! ## Removals -/

omit hl in
theorem lockstep_removeCounted (under : StoreKey → Bool) (size : Int) :
    Lockstep R (removeCounted under size) := by
  refine lockstep_bind (lockstep_removeAll h under) fun count => ?_
  split
  · exact lockstep_throw _
  · exact lockstep_pure _

theorem lockstep_removeContents (keyInfo : KeyDescriptor) :
    Lockstep R (removeContents key keyInfo) := by
  unfold removeContents
  split
  · exact lockstep_bind (lockstep_mustExist h _) fun _ => lockstep_del h _
  · exact lockstep_removeCounted h _ _
  · exact lockstep_removeCounted h _ _
  · exact lockstep_removeCounted h _ _
  · exact lockstep_removeCounted h _ _
  · refine lockstep_bind (lockstep_assertThat _ _) fun _ => ?_
    exact lockstep_bind (lockstep_removeCounted h _ _) fun _ => lockstep_removeCounted h _ _
  · refine lockstep_bind (lockstep_leaseRelease h key hl) fun st => ?_
    split
    · exact lockstep_throw _
    · exact lockstep_pure _
  · exact lockstep_throw _

theorem lockstep_delKeys (keys : List Bytes) : Lockstep R (delKeys keys) := by
  induction keys with
  | nil => exact lockstep_pure _
  | cons key rest ih =>
    refine lockstep_bind (lockstep_getKeyDescriptor h key) fun keyInfo => ?_
    split
    · exact ih
    refine lockstep_bind (lockstep_removeContents h key hl keyInfo) fun _ => ?_
    refine lockstep_bind (lockstep_del h _) fun _ => ?_
    exact lockstep_bind ih fun _ => lockstep_pure _

theorem lockstep_flushall : Lockstep R flushall := by
  refine lockstep_bind (lockstep_removeAll h isData) fun _ => ?_
  exact lockstep_bind (lockstep_modify hl.clear) fun _ => lockstep_pure _

omit hl

/-! ## Requests -/

omit h in
theorem lockstep_reply {c : StagingM α} {reply : α → Bytes} (hc : Lockstep R c) :
    Lockstep R (do return reply (← c)) :=
  lockstep_bind hc fun _ => lockstep_pure _

theorem lockstep_hincrbyLoop (args : List Bytes) : Lockstep R (hincrbyLoop args) := by
  induction args using hincrbyLoop.induct with
  | case1 key field incrby rest ih =>
    unfold hincrbyLoop
    refine lockstep_bind (lockstep_increment h key field incrby) fun result => ?_
    exact lockstep_bind ih fun ret => lockstep_pure _
  | case2 args hne =>
    unfold hincrbyLoop
    split
    · exact (hne _ _ _ _ rfl).elim
    · exact lockstep_pure _

theorem lockstep_convertHashFieldToLhash (field destKey destField destHint : Bytes) :
    Lockstep R (convertHashFieldToLhash key field destKey destField destHint) := by
  refine lockstep_bind (lockstep_lhget h _ _ _) fun r1 => ?_
  dsimp only
  split
  · exact lockstep_pure _
  refine lockstep_bind (lockstep_hget h _ _) fun r2 => ?_
  split
  · exact lockstep_pure _
  refine lockstep_bind (lockstep_lhset h _ _ _ _) fun r3 => ?_
  split
  · exact lockstep_pure _
  split
  · exact lockstep_throw _
  refine lockstep_bind (lockstep_deleteFields h _ _ [field]) fun r4 => ?_
  split
  · exact lockstep_throw_bind _
  · exact lockstep_bind (lockstep_assertThat _ _) fun _ => lockstep_pure _

theorem lockstep_dispatchLeaseAcquire (hl : SameLeases R) (value durationStr timestampStr : Bytes) :
    Lockstep R (dispatchLeaseAcquire key value durationStr timestampStr) := by
  unfold dispatchLeaseAcquire
  split
  · exact lockstep_pure _
  split
  · exact lockstep_pure _
  refine lockstep_bind (lockstep_assertThat _ _) fun _ => ?_
  refine lockstep_bind (lockstep_lease_acquire h _ hl _ _ _) fun result => ?_
  split <;> exact lockstep_pure _

theorem lockstep_dispatchLeaseGet (hl : SameLeases R) (timestampStr : Bytes) :
    Lockstep R (dispatchLeaseGet key timestampStr) := by
  refine lockstep_bind (lockstep_assertThat _ _) fun _ => ?_
  refine lockstep_bind (lockstep_lease_get h _ hl _) fun result => ?_
  dsimp only
  split
  · exact lockstep_pure _
  · exact lockstep_bind (lockstep_assertThat _ _) fun _ => lockstep_pure _

theorem lockstep_dispatchLeaseRelease (hl : SameLeases R) (timestampStr : Bytes) :
    Lockstep R (dispatchLeaseRelease key timestampStr) := by
  refine lockstep_bind (lockstep_assertThat _ _) fun _ => ?_
  refine lockstep_bind (lockstep_lease_release h _ hl _) fun st => ?_
  split <;> exact lockstep_pure _

/-- Every command does the same on related staging areas. -/
theorem lockstep_dispatchCommand (hv : SameVersions R) (hl : SameLeases R) (doubles : Doubles)
    (request : RedisRequest) : Lockstep R (dispatchCommand doubles request) := by
  unfold dispatchCommand
  dsimp only
  split
  · exact lockstep_reply (lockstep_flushall h hl)
  · exact lockstep_pure _
  · exact lockstep_reply (lockstep_set h _ _)
  · exact lockstep_pure _
  · exact lockstep_reply (lockstep_delKeys h hl _)
  · exact lockstep_pure _
  · exact lockstep_reply (lockstep_hset h _ _ _)
  · exact lockstep_pure _
  · exact lockstep_reply (lockstep_hsetnx h _ _ _)
  · exact lockstep_pure _
  · split
    · exact lockstep_pure _
    · exact lockstep_reply (lockstep_hmset h _ _)
  · exact lockstep_pure _
  · exact lockstep_reply (lockstep_increment h _ _ _)
  · exact lockstep_pure _
  · split
    · exact lockstep_pure _
    · exact lockstep_reply (lockstep_hincrbyLoop h _)
  · exact lockstep_reply (lockstep_increment h _ _ _)
  · exact lockstep_pure _
  · exact lockstep_reply (lockstep_deleteFields h _ _ _)
  · exact lockstep_pure _
  · exact lockstep_reply (lockstep_hclone h _ _)
  · exact lockstep_pure _
  · exact lockstep_reply (lockstep_sadd h _ _)
  · exact lockstep_pure _
  · exact lockstep_reply (lockstep_deleteFields h _ _ _)
  · exact lockstep_pure _
  · exact lockstep_reply (lockstep_smove h _ _ _)
  · exact lockstep_pure _
  · exact lockstep_reply (lockstep_dequePush h _ _ _)
  · exact lockstep_pure _
  · exact lockstep_reply (lockstep_dequePush h _ _ _)
  · exact lockstep_pure _
  · exact lockstep_reply (lockstep_dequePop h _ _)
  · exact lockstep_pure _
  · exact lockstep_reply (lockstep_dequePop h _ _)
  · exact lockstep_pure _
  · exact lockstep_reply (lockstep_dequeTrimFront h _ _)
  · exact lockstep_pure _
  · exact lockstep_reply (lockstep_dequeTrimFront h _ _)
  · exact lockstep_pure _
  · exact lockstep_reply (lockstep_bind (lockstep_put h _ _) fun _ => lockstep_pure _)
  · exact lockstep_pure _
  · exact lockstep_reply (lockstep_lhset h _ _ _ _)
  · exact lockstep_pure _
  · exact lockstep_reply (lockstep_lhdel h _ _)
  · exact lockstep_pure _
  · exact lockstep_reply (lockstep_lhlocdel h _ _ _)
  · exact lockstep_pure _
  · split
    · exact lockstep_pure _
    · exact lockstep_reply (lockstep_lhmset h _ _)
  · exact lockstep_pure _
  · refine lockstep_bind (lockstep_reply (lockstep_lhset h _ _ _ _)) fun resp => ?_
    exact lockstep_bind (lockstep_reply (lockstep_deleteFields h _ _ _)) fun _ => lockstep_pure _
  · exact lockstep_pure _
  · refine lockstep_bind (lockstep_reply (lockstep_lhdel h _ _)) fun resp => ?_
    split
    · exact lockstep_reply (lockstep_deleteFields h _ _ _)
    · exact lockstep_pure _
  · exact lockstep_pure _
  · exact lockstep_convertHashFieldToLhash h _ _ _ _ _
  · exact lockstep_pure _
  · exact lockstep_dispatchLeaseAcquire h _ hl _ _ _
  · exact lockstep_pure _
  · exact lockstep_dispatchLeaseGet h _ hl _
  · exact lockstep_pure _
  · exact lockstep_dispatchLeaseRelease h _ hl _
  · exact lockstep_pure _
  · refine lockstep_reply ?_
    unfold artificiallySlowWriteNeverUseThis
    split
    · exact lockstep_pure _
    · split <;> exact lockstep_pure _
  · exact lockstep_pure _
  · exact lockstep_reply (lockstep_vhset h _ hv _ _)
  · exact lockstep_pure _
  · exact lockstep_reply (lockstep_vhdel h _ hv _)
  · exact lockstep_pure _
  · exact lockstep_throw _

end

end quarkdb
