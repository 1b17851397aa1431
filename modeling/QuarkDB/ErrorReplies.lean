-- Which writes answer with an error and still change the store. A command that finds
-- a key of the wrong type stops before it writes anything; some commands go on.
import QuarkDB.Batches
import QuarkDB.Frames

namespace quarkdb

open Endian StateMachine StagingArea Outcome RedisDispatcher Formatter

/-! ## Replies -/

/-- An encoded error starts with a dash. -/
def isError (reply : Bytes) : Bool := reply.head? = some 45

theorem isError_integer (n : Int) : isError (integer n) = false := rfl

theorem isError_flag (b : Bool) : isError (flag b) = false := rfl

theorem isError_string (str : Bytes) : isError (string str) = false := rfl

theorem isError_replyWith {α : Type} {result : Status × α} {reply : α → Bytes}
    (h : ∀ a, isError (reply a) = false) (hok : result.1 = .OK) :
    isError (replyWith result reply) = false := by
  unfold replyWith
  rw [hok]
  exact h _

theorem isError_replyOrNull {α : Type} {result : Status × α} {reply : α → Bytes}
    (h : ∀ a, isError (reply a) = false) (hok : result.1 = .OK ∨ result.1 = .NotFound) :
    isError (replyOrNull result reply) = false := by
  unfold replyOrNull
  rcases hok with hok | hok
  · rw [hok]
    exact isError_replyWith h hok
  · rw [hok]
    rfl

theorem isError_fromStatus {st : Status} (hok : st = .OK) : isError (fromStatus st) = false := by
  rw [hok]
  rfl

/-! ## Commands that stop before they write -/

section

variable {α : Type} {good : α → Prop} {key : Bytes} {type : KeyType}

theorem looks_stored (k : StoreKey) : Looks (StagingArea.get k) :=
  spares_bind looks_get fun _ => spares_pure _

theorem looks_keyExists (k : StoreKey) : Looks (keyExists k) :=
  spares_bind (looks_stored k) fun _ => spares_pure _

theorem looks_throwing (call : Except Fault α) : Looks (throwing call) := looks_lift call

theorem looks_getKeyDescriptor (key : Bytes) : Looks (getKeyDescriptor key) := by
  refine spares_bind (looks_stored _) fun found => ?_
  split
  · exact spares_pure _
  · exact looks_throwing _

theorem looks_start (key : Bytes) (type : KeyType) : Looks (WriteOperation.start key type) := by
  refine spares_bind (looks_getKeyDescriptor key) fun keyinfo => ?_
  split <;> exact spares_pure _

/-- On a key of another type nothing happens. -/
theorem spares_withOperation {otherwise : α} {body : WriteOperation → StagingM α}
    (hbody : ∀ op, Spares good (body op)) : Spares good (withOperation key type otherwise body) := by
  refine spares_bind (looks_start key type) fun op => ?_
  split
  · exact hbody op
  · exact spares_pure _

/-- A command whose operation, once it is let through, ends well. -/
theorem spares_of_returns {otherwise : α} {body : WriteOperation → StagingM α}
    (hbody : ∀ op, Returns good (body op)) : Spares good (withOperation key type otherwise body) :=
  spares_withOperation fun op => (hbody op).spares

theorem spares_set (value : Bytes) : Spares (· = .OK) (StateMachine.set key value) :=
  spares_of_returns fun _ => returns_bind fun _ => returns_bind fun _ => returns_pure rfl

theorem spares_hset (field value : Bytes) : Spares (·.1 = .OK) (hset key field value) :=
  spares_of_returns fun _ => returns_bind fun _ => returns_bind fun _ => returns_bind fun _ =>
    returns_pure rfl

theorem spares_hsetnx (field value : Bytes) : Spares (·.1 = .OK) (hsetnx key field value) := by
  apply spares_of_returns
  intro op
  refine returns_bind fun found => ?_
  dsimp only
  split
  · exact returns_bind fun _ => returns_bind fun _ => returns_pure rfl
  · exact returns_bind fun _ => returns_pure rfl

theorem spares_hmset (args : List Bytes) : Spares (· = .OK) (hmset key args) := by
  unfold hmset
  dsimp only
  split
  · exact fun _ => trivial
  · exact spares_of_returns fun _ => returns_bind fun _ => returns_bind fun _ => returns_pure rfl

theorem spares_deleteFields (fields : List Bytes) :
    Spares (·.1 = .OK) (deleteFields type key fields) :=
  spares_of_returns fun _ => returns_bind fun _ => returns_bind fun _ => returns_pure rfl

theorem spares_hclone (source target : Bytes) : Spares (· = .OK) (hclone source target) := by
  apply spares_withOperation
  intro op
  dsimp only
  split
  · exact spares_pure _
  refine spares_bind (looks_getKeyDescriptor source) fun sourceKeyInfo => ?_
  split
  · exact spares_pure _
  split
  · exact spares_pure _
  apply Returns.spares
  exact returns_bind fun _ => returns_bind fun _ => returns_bind fun _ => returns_bind fun _ =>
    returns_pure rfl

theorem spares_sadd (elements : List Bytes) : Spares (·.1 = .OK) (sadd key elements) :=
  spares_of_returns fun _ => returns_bind fun _ => returns_bind fun _ => returns_pure rfl

theorem spares_dequePush (direction : Direction) (items : List Bytes) :
    Spares (·.1 = .OK) (dequePush direction key items) :=
  spares_of_returns fun _ => returns_bind fun _ => returns_bind fun _ => returns_pure rfl

theorem spares_dequePop (direction : Direction) :
    Spares (fun r => r.1 = .OK ∨ r.1 = .NotFound) (dequePop direction key) := by
  apply spares_of_returns
  intro op
  dsimp only
  split
  · exact returns_bind fun _ => returns_pure (.inr rfl)
  refine returns_bind fun found => ?_
  split
  · exact returns_throw _
  · exact returns_bind fun _ => returns_bind fun _ => returns_bind fun _ => returns_pure (.inl rfl)

theorem spares_dequeTrimFront (maxToKeepStr : Bytes) :
    Spares (·.1 = .OK) (dequeTrimFront key maxToKeepStr) := by
  unfold dequeTrimFront
  split
  · exact spares_pure _
  split
  · exact spares_pure _
  apply spares_of_returns
  intro op
  dsimp only
  split
  · exact returns_pure rfl
  · exact returns_bind fun _ => returns_bind fun _ => returns_bind fun _ => returns_pure rfl

theorem spares_lhset (field hint value : Bytes) :
    Spares (·.1 = .OK) (lhset key field hint value) :=
  spares_of_returns fun _ => returns_bind fun _ => returns_bind fun _ => returns_pure rfl

theorem spares_lhmset (args : List Bytes) : Spares (· = .OK) (lhmset key args) := by
  unfold lhmset
  dsimp only
  split
  · exact fun _ => trivial
  · exact spares_of_returns fun _ => returns_bind fun _ => returns_bind fun _ => returns_pure rfl

theorem spares_lhdel (fields : List Bytes) : Spares (·.1 = .OK) (lhdel key fields) :=
  spares_of_returns fun _ => returns_bind fun _ => returns_bind fun _ => returns_pure rfl

theorem looks_assertKeyType (type : KeyType) : Looks (assertKeyType key type) :=
  spares_bind (looks_getKeyDescriptor key) fun _ => spares_pure _

theorem spares_lhlocdel (field hint : Bytes) : Spares (·.1 = .OK) (lhlocdel key field hint) := by
  refine spares_bind (looks_assertKeyType _) fun right => ?_
  split
  · exact spares_pure _
  refine spares_bind (looks_throwing _) fun k => ?_
  refine spares_bind (looks_keyExists k) fun found => ?_
  split
  swap
  · exact spares_pure _
  intro s
  rw [yields_bind]
  refine (spares_lhdel [field] s).mono fun ⟨st, removed⟩ s' hr => ?_
  rcases hr with hr | rfl
  · have hret : Returns (·.1 = .OK) (do
        assertThat (removed = 1) "removed == 1"
        return (st, removed)) := returns_bind fun _ => returns_pure hr
    exact (hret s').mono fun _ _ h => .inl h
  · exact spares_bind (looks_throwing _) (fun _ => spares_pure _) s'

theorem looks_hget (field : Bytes) : Looks (hget key field) := by
  refine spares_bind (looks_assertKeyType _) fun right => ?_
  split
  · exact spares_pure _
  refine spares_bind (looks_stored _) fun found => ?_
  split <;> exact spares_pure _

theorem looks_lhgetByIndex (field hint : Bytes) : Looks (do
    match ← StagingArea.get (← throwing (localityIndexKey key field)) with
    | none => return (Status.NotFound, [])
    | some correctHint =>
      if !hint.isEmpty then assertThat (hint ≠ correctHint) "hint != correctHint"
      match ← StagingArea.get (← throwing (localityFieldKey key correctHint field)) with
      | some value => return (.OK, value)
      | none => throw (.thrown "NotFound: ") : StagingM (Status × Bytes)) := by
  refine spares_bind (looks_throwing _) fun k => ?_
  refine spares_bind (looks_stored k) fun found => ?_
  split
  · exact spares_pure _
  rename_i correctHint
  have hlast : Looks (do
      match ← StagingArea.get (← throwing (localityFieldKey key correctHint field)) with
      | some value => return (Status.OK, value)
      | none => throw (.thrown "NotFound: ") : StagingM (Status × Bytes)) := by
    refine spares_bind (looks_throwing _) fun k => ?_
    refine spares_bind (looks_stored k) fun found => ?_
    split
    · exact spares_pure _
    · exact spares_throw _
  dsimp only
  split
  · exact spares_bind (looks_throwing _) fun _ => hlast
  · exact hlast

theorem looks_lhget (field hint : Bytes) : Looks (lhget key field hint) := by
  refine spares_bind (looks_assertKeyType _) fun right => ?_
  split
  · exact spares_pure _
  dsimp only
  split
  · exact looks_lhgetByIndex field hint
  refine spares_bind (looks_throwing _) fun k => ?_
  refine spares_bind (looks_stored k) fun direct => ?_
  split
  · exact spares_pure _
  · exact looks_lhgetByIndex field hint

theorem spares_vhset (field value : Bytes) : Spares (·.1 = .OK) (vhset key field value) := by
  apply spares_of_returns
  intro op
  exact returns_bind fun _ => returns_bind fun _ => returns_bind fun _ => returns_bind fun _ =>
    returns_bind fun _ => returns_bind fun _ => returns_pure rfl

theorem spares_vhdel (fields : List Bytes) : Spares (·.1 = .OK) (vhdel key fields) := by
  apply spares_of_returns
  intro op
  exact returns_bind fun _ => returns_bind fun _ => returns_bind fun _ => returns_bind fun _ =>
    returns_bind fun _ => returns_pure rfl

/-- The field is moved after all checks, and both sides have passed theirs. -/
theorem spares_convertHashFieldToLhash (field destKey destField destHint : Bytes) :
    Spares (isError · = false) (convertHashFieldToLhash key field destKey destField destHint) := by
  refine spares_bind (looks_lhget _ _) fun r1 => ?_
  dsimp only
  split
  · exact spares_pure _
  refine spares_bind (looks_hget _) fun r2 => ?_
  split
  · exact spares_pure _
  intro s
  rw [yields_bind]
  refine (spares_lhset _ _ _ s).mono fun r3 s' hr => ?_
  split
  · rename_i hst
    rcases hr with hr | rfl
    · rw [hr] at hst
      cases hst
    · exact .inr rfl
  split
  · trivial
  rw [yields_bind]
  refine ((spares_deleteFields [field] s').mono fun r4 s'' _ => ?_)
  split
  · trivial
  · have hret : Returns (isError · = false) (do
        assertThat (r4.2 = 1) "removed == 1"
        return ok) := returns_bind fun _ => returns_pure rfl
    exact (hret s'').mono fun _ _ h => .inl h

end

/-! ## Commands that go on -/

/-- What the descriptor of a key says, if it can be read. -/
def descriptorOf (store : Store) (key : Bytes) : Option KeyDescriptor :=
  (store.lookup (.descriptor key)).bind fun bytes => (KeyDescriptor.ofBytes bytes).toOption

/-- The key has another type. -/
def isOther (store : Store) (key : Bytes) (type : KeyType) : Bool :=
  (descriptorOf store key).any fun d => d.keyType ≠ type

/-- The key has a descriptor of this type, and it counts nothing. -/
def countsNothing (store : Store) (key : Bytes) (type : KeyType) : Bool :=
  (descriptorOf store key).any fun d => d.keyType = type ∧ d.sz = 0

/-- The field is there, but what it holds is no number; and what it should grow by is one. -/
def isMalformed {ν : Type} (parse : Bytes → Option ν) (store : Store)
    (key field incrby : Bytes) : Bool :=
  (parse incrby).isSome &&
    (store.lookup (.field .kHash key field)).any fun value => (parse value).isNone

/-- To delete the field changes the store. -/
def losesField (store : Store) (key field : Bytes) : Bool :=
  (descriptorOf store key).any fun d => d.keyType = .kHash ∧
    if (store.lookup (.field .kHash key field)).isSome then 0 ≤ sum64 d.sz (-1) else d.sz = 0

/-- The request is answered with an error after it changed the store. LHSET_AND_DEL_FALLBACK
deletes the fallback whatever became of the first part. The others write the size of a key
again before they fail, which removes the descriptor of a key that counts nothing. -/
def spoils (doubles : Doubles) (store : Store) (request : RedisRequest) : Bool :=
  match getCommand request, request.tail with
  | .LHSET_AND_DEL_FALLBACK, [key, field, _, _, fallback] =>
    isOther store key .kLocalityHash && losesField store fallback field
  | .LHDEL_WITH_FALLBACK, [key, field, fallback] =>
    countsNothing store key .kLocalityHash && !key.isEmpty && !field.isEmpty &&
      (store.lookup (.localityIndex key field)).isNone &&
      (fallback ≠ key && isOther store fallback .kHash)
  | .HINCRBY, [key, field, incrby] =>
    countsNothing store key .kHash && isMalformed parseInt64 store key field incrby
  | .HINCRBYFLOAT, [key, field, incrby] =>
    countsNothing store key .kHash && isMalformed doubles.my_strtod store key field incrby
  | .SMOVE, [source, destination, _] =>
    countsNothing store source .kSet && isOther store destination .kSet
  | _, _ => false

/-- All keys have the value they had, but for the mark of what was applied last. -/
def Unchanged (store store' : Store) : Prop :=
  ∀ k ≠ .lastApplied, store'.lookup k = store.lookup k

section

variable {α : Type} {s : StagingArea} {key : Bytes} {type : KeyType} {fault : Fault → Prop}

theorem unchanged_delIn {k : StoreKey} (h : s.store.lookup k = none) :
    Unchanged s.store (s.delIn k).store := by
  intro k' _
  change (s.store.erase k).lookup k' = _
  by_cases hk : k' = k
  · rw [hk, AList.lookup_erase, h]
  · exact AList.lookup_erase_ne hk

theorem changed_of_missing {store store' : Store} {k : StoreKey} (hk : k ≠ .lastApplied)
    (h : (store.lookup k).isSome) (h' : store'.lookup k = none) : ¬Unchanged store store' := by
  intro hu
  rw [← hu k hk, h'] at h
  cases h

theorem lookup_of_descriptorOf {store : Store} {d : KeyDescriptor}
    (h : descriptorOf store key = some d) :
    ∃ bytes, store.lookup (.descriptor key) = some bytes ∧ KeyDescriptor.ofBytes bytes = .ok d := by
  unfold descriptorOf at h
  obtain ⟨bytes, hb, hd⟩ := Option.bind_eq_some_iff.mp h
  refine ⟨bytes, hb, ?_⟩
  rcases ho : KeyDescriptor.ofBytes bytes with e | d' <;> rw [ho] at hd <;> cases hd
  rfl

theorem stored_of_descriptorOf {store : Store} {d : KeyDescriptor}
    (h : descriptorOf store key = some d) : (store.lookup (.descriptor key)).isSome := by
  obtain ⟨bytes, hb, -⟩ := lookup_of_descriptorOf h
  rw [hb]
  rfl

theorem descriptorOf_of_none {store : Store} (h : store.lookup (.descriptor key) = none) :
    descriptorOf store key = none := by
  unfold descriptorOf
  rw [h]
  rfl

theorem isOther_of_none {store : Store} (h : descriptorOf store key = none) :
    isOther store key type = false := by
  unfold isOther
  rw [h]
  rfl

theorem isOther_of_some {store : Store} {d : KeyDescriptor} (h : descriptorOf store key = some d) :
    isOther store key type = decide (d.keyType ≠ type) := by
  unfold isOther
  rw [h]
  rfl

theorem isOther_of_type {store : Store} {d : KeyDescriptor} (h : descriptorOf store key = some d)
    (ht : d.keyType = type) : isOther store key type = false := by
  rw [isOther_of_some h]
  exact decide_eq_false (not_not.mpr ht)

theorem countsNothing_of_none {store : Store} (h : descriptorOf store key = none) :
    countsNothing store key type = false := by
  unfold countsNothing
  rw [h]
  rfl

theorem countsNothing_of_some {store : Store} {d : KeyDescriptor}
    (h : descriptorOf store key = some d) (ht : d.keyType = type) :
    countsNothing store key type = decide (d.sz = 0) := by
  unfold countsNothing
  rw [h]
  simp [ht]

theorem countsNothing_of_other {store : Store} (h : isOther store key type = true) :
    countsNothing store key type = false := by
  rcases hd : descriptorOf store key with _ | d
  · exact countsNothing_of_none hd
  · rw [isOther_of_some hd] at h
    unfold countsNothing
    rw [hd]
    exact decide_eq_false fun h' => of_decide_eq_true h h'.1

theorem isMalformed_of_none {ν : Type} {parse : Bytes → Option ν} {store : Store}
    {field incrby : Bytes} (h : parse incrby = none) :
    isMalformed parse store key field incrby = false := by
  unfold isMalformed
  rw [h]
  rfl

/-- The operation that is started on a key with a descriptor. -/
def WriteOperation.known (key : Bytes) (d : KeyDescriptor) (type : KeyType) : WriteOperation where
  redisKey := key
  keyinfo := d
  redisKeyExists := true
  isValid := d.keyType = type

theorem yields_start {post : WriteOperation → StagingArea → Prop}
    (hfault : ∀ e, descriptorOf s.store key = none → fault e)
    (hfresh : s.store.lookup (.descriptor key) = none → post (.fresh key type) s)
    (hknown : ∀ d, descriptorOf s.store key = some d → post (.known key d type) s) :
    Yields (WriteOperation.start key type) s post fault := by
  unfold WriteOperation.start getKeyDescriptor
  rw [yields_bind, yields_bind, yields_lookup]
  rcases hl : s.store.lookup (.descriptor key) with _ | bytes <;> rw [hl] <;> dsimp only
  · exact hfresh hl
  rcases hd : KeyDescriptor.ofBytes bytes with e | d
  · refine hfault e ?_
    unfold descriptorOf
    rw [hl, Option.bind_some, hd]
    rfl
  · rw [throwing_ok, yields_pure, ofBytes_not_empty hd, if_neg nofun]
    refine hknown d ?_
    unfold descriptorOf
    rw [hl, Option.bind_some, hd]
    rfl

/-- What a command does, in all ways its operation can start. -/
theorem yields_withOperation {otherwise : α} {body : WriteOperation → StagingM α}
    {post : α → StagingArea → Prop}
    (hfault : ∀ e, descriptorOf s.store key = none → fault e)
    (hfresh : s.store.lookup (.descriptor key) = none →
      Yields (body (.fresh key type)) s post fault)
    (hother : isOther s.store key type = true → post otherwise s)
    (hknown : ∀ d, descriptorOf s.store key = some d → d.keyType = type →
      Yields (body (.known key d type)) s post fault) :
    Yields (withOperation key type otherwise body) s post fault := by
  unfold withOperation
  rw [yields_bind]
  refine yields_start hfault hfresh fun d hd => ?_
  by_cases ht : d.keyType = type
  · rw [if_pos (show (WriteOperation.known key d type).isValid = true from decide_eq_true ht)]
    exact hknown d hd ht
  · rw [if_neg (by simp [WriteOperation.known, ht])]
    refine hother ?_
    rw [isOther_of_some hd]
    exact decide_eq_true ht

/-- On a key of another type nothing happens; on all others the command ends well. -/
def Checked (s : StagingArea) (key : Bytes) (type : KeyType) (otherwise : α) (good : α → Prop)
    (a : α) (s' : StagingArea) : Prop :=
  (isOther s.store key type = true → a = otherwise ∧ s' = s) ∧
    (isOther s.store key type = false → good a)

theorem yields_withOperation_checked {good : α → Prop} {otherwise : α}
    {body : WriteOperation → StagingM α} (hbody : ∀ op, Returns good (body op)) :
    Yields (withOperation key type otherwise body) s (Checked s key type otherwise good)
      fun _ => isOther s.store key type = false := by
  have hpassed : isOther s.store key type = false → ∀ op, Yields (body op) s
      (Checked s key type otherwise good) fun _ => isOther s.store key type = false := by
    intro ho op
    rw [ho]
    refine ((hbody op s).mono fun _ _ h => ⟨fun ho' => ?_, fun _ => h⟩).weaken fun _ _ => rfl
    rw [ho] at ho'
    cases ho'
  apply yields_withOperation
  · exact fun _ hd => isOther_of_none hd
  · exact fun hl => hpassed (isOther_of_none (descriptorOf_of_none hl)) _
  · intro ho
    refine ⟨fun _ => ⟨rfl, rfl⟩, fun ho' => ?_⟩
    rw [ho] at ho'
    cases ho'
  · exact fun d hd ht => hpassed (isOther_of_type hd ht) _

theorem yields_hdel_checked (key : Bytes) (fields : List Bytes) :
    Yields (hdel key fields) s (Checked s key .kHash (wrongType, 0) (·.1 = .OK))
      fun _ => isOther s.store key .kHash = false :=
  yields_withOperation_checked fun _ => returns_bind fun _ => returns_bind fun _ =>
    returns_pure rfl

theorem yields_lhset_checked (key field hint value : Bytes) :
    Yields (lhset key field hint value) s
      (Checked s key .kLocalityHash (wrongType, false) (·.1 = .OK))
      fun _ => isOther s.store key .kLocalityHash = false :=
  yields_withOperation_checked fun _ => returns_bind fun _ => returns_bind fun _ =>
    returns_pure rfl

variable {op : WriteOperation} {post : Unit → StagingArea → Prop}

/-- The size is written again as it was: that matters only when it is nothing. -/
theorem yields_finalize_same (hv : op.isValid = true) (ht : op.keyinfo.keyType ≠ .kVersionedHash)
    (hneg : op.keyinfo.sz < 0 → ∀ e, fault e)
    (hzero : op.keyinfo.sz = 0 → post () (s.delIn (.descriptor op.redisKey)))
    (hpos : 0 < op.keyinfo.sz → post () s) :
    Yields (op.finalize op.keyinfo.sz false) s post fault := by
  rcases Int.lt_trichotomy op.keyinfo.sz 0 with h | h | h
  · unfold WriteOperation.finalize
    rw [WriteOperation.assertWritable_valid hv, pure_bind, if_pos h]
    exact hneg h _
  · rw [h]
    exact (yields_finalize_gone hv ht).mpr (hzero h)
  · exact (yields_finalize_kept hv (Int.le_of_lt h) (fun h0 => by omega) rfl).mpr (hpos h)

end

/-! ### One field less -/

theorem sz_of_ofBytes {c : UInt8} {rest : Bytes} {d : KeyDescriptor}
    (h : KeyDescriptor.ofBytes (c :: rest) = .ok d) : d.sz = ofBigInt (rest.take 8) := by
  unfold KeyDescriptor.ofBytes at h
  dsimp only at h
  generalize ofBigInt (rest.take 8) = sz at h ⊢
  split at h
  · obtain ⟨_, -, h⟩ := ok_of_bind h
    cases h
    rfl
  · obtain ⟨_, -, h⟩ := ok_of_bind h
    obtain ⟨_, -, h⟩ := ok_of_bind h
    cases h
    rfl
  · obtain ⟨_, -, h⟩ := ok_of_bind h
    cases h
    rfl
  · cases h

/-- The size that is read from a descriptor fits. -/
theorem sum64_zero_of_ofBytes {bytes : Bytes} {d : KeyDescriptor}
    (h : KeyDescriptor.ofBytes bytes = .ok d) : sum64 d.sz 0 = d.sz := by
  rcases bytes with _ | ⟨c, rest⟩
  · cases h
  · rw [sz_of_ofBytes h]
    unfold sum64 ofBigInt signed
    rw [Int.add_zero, Int.bmod_bmod]

theorem losesField_of_missing {store : Store} {key field : Bytes}
    (h : descriptorOf store key = none) : losesField store key field = false := by
  unfold losesField
  rw [h]
  rfl

theorem losesField_of_other {store : Store} {key field : Bytes}
    (h : isOther store key .kHash = true) : losesField store key field = false := by
  unfold isOther at h
  unfold losesField
  cases hd : descriptorOf store key with
  | none => rfl
  | some d =>
    rw [hd] at h
    have ht : d.keyType ≠ .kHash := of_decide_eq_true h
    exact decide_eq_false fun h => ht h.1

section

variable {s : StagingArea} {key field : Bytes} {op : WriteOperation} {fault : Fault → Prop}

theorem yields_deleteLoop_field (hv : op.isValid = true) (ht : op.keyinfo.keyType = .kHash)
    {post : Int → StagingArea → Prop} (hin : .field .kHash op.redisKey field ∈ s.store →
      post 1 (s.delIn (.field .kHash op.redisKey field)))
    (hout : .field .kHash op.redisKey field ∉ s.store → post 0 s) :
    Yields (deleteLoop op [field]) s post fault := by
  have hb : op.keyinfo.keyType.bearsFields = true := by
    rw [ht]
    rfl
  unfold deleteLoop
  rw [yields_bind, WriteOperation.deleteField_eq hv hb, ht]
  by_cases hf : StoreKey.field .kHash op.redisKey field ∈ s.store
  · exact (yields_deleteKey hf).mpr (hin hf)
  · exact (yields_deleteKey_missing hf).mpr (hout hf)

/-- A hash gets any size but a negative one, and nothing else of the store is touched. -/
theorem yields_finalize_hash {newsize : Int} {force : Bool} (hv : op.isValid = true)
    (ht : op.keyinfo.keyType = .kHash) :
    Yields (op.finalize newsize force) s
      (fun _ s' => 0 ≤ newsize ∧
        ∀ k ≠ .descriptor op.redisKey, s'.store.lookup k = s.store.lookup k)
      fun _ => newsize < 0 := by
  unfold WriteOperation.finalize
  rw [WriteOperation.assertWritable_valid hv, pure_bind]
  by_cases hneg : newsize < 0
  · rw [if_pos hneg]
    exact hneg
  rw [if_neg hneg]
  have h0 : 0 ≤ newsize := Int.not_lt.mp hneg
  split
  · exact ⟨h0, fun k hk => AList.lookup_erase_ne hk⟩
  split
  · have hs : KeyDescriptor.serialize { op.keyinfo with sz := newsize } =
        .ok (op.keyinfo.keyType.toChar :: bigInt newsize) := by
      unfold KeyDescriptor.serialize
      rw [ht]
      rfl
    rw [hs, throwing_ok, pure_bind, yields_put]
    exact ⟨h0, fun k hk => AList.lookup_insert_ne hk⟩
  · exact ⟨h0, fun _ _ => rfl⟩

/-- To delete one field of a hash changes the store as `losesField` says. -/
theorem yields_hdel_field (s : StagingArea) (key field : Bytes) :
    Yields (hdel key [field]) s
      (fun _ s' => losesField s.store key field = false ↔ Unchanged s.store s'.store)
      fun _ => losesField s.store key field = false := by
  apply yields_withOperation
  · exact fun _ hd => losesField_of_missing hd
  · intro hl
    have hloses : losesField s.store key field = false :=
      losesField_of_missing (descriptorOf_of_none hl)
    rw [hloses, yields_bind]
    apply yields_deleteLoop_field rfl rfl
    · intro _
      trivial
    · intro _
      rw [yields_bind]
      refine (yields_finalize_gone rfl (by nofun)).mpr ?_
      exact ⟨fun _ => unchanged_delIn hl, fun _ => rfl⟩
  · intro ho
    exact ⟨fun _ _ _ => rfl, fun _ => losesField_of_other ho⟩
  · intro d hd ht
    obtain ⟨bytes, hl, ho⟩ := lookup_of_descriptorOf hd
    have hv : (WriteOperation.known key d .kHash).isValid = true := decide_eq_true ht
    have ht' : (WriteOperation.known key d .kHash).keyinfo.keyType ≠ .kVersionedHash := by
      change d.keyType ≠ _
      rw [ht]
      nofun
    rw [yields_bind]
    apply yields_deleteLoop_field hv ht
    · intro hf
      -- the field is gone, whatever becomes of the descriptor
      have hfield : (s.store.lookup (.field .kHash key field)).isSome = true :=
        AList.lookup_isSome.mpr hf
      have hloses : losesField s.store key field = decide (0 ≤ sum64 d.sz (-1)) := by
        unfold losesField
        rw [hd, hfield]
        simp [ht]
      rw [hloses, yields_bind]
      refine ((yields_finalize_hash hv ht).mono fun _ s' ⟨h0, hrest⟩ => ?_).weaken
        fun _ hneg => ?_
      · exact decide_eq_false (Int.not_le.mpr hneg)
      · rw [yields_pure, decide_eq_true (show 0 ≤ sum64 d.sz (-1) from h0)]
        refine ⟨nofun, fun hu => absurd hu (changed_of_missing (by nofun) hfield ?_)⟩
        rw [hrest _ (by nofun)]
        exact AList.lookup_erase _ _
    · intro hf
      have hfield : s.store.lookup (.field .kHash key field) = none := AList.lookup_eq_none.mpr hf
      have hloses : losesField s.store key field = decide (d.sz = 0) := by
        unfold losesField
        rw [hd, hfield]
        simp [ht]
      have hz : sum64 (WriteOperation.known key d .kHash).keySize (-0) = d.sz :=
        sum64_zero_of_ofBytes ho
      rw [hloses, yields_bind, hz]
      apply yields_finalize_same hv ht'
      · intro (hneg : d.sz < 0) _
        exact decide_eq_false (by omega)
      · intro (h0 : d.sz = 0)
        rw [yields_pure, decide_eq_true h0]
        refine ⟨nofun, fun hu => absurd hu (changed_of_missing (by nofun) (stored_of_descriptorOf hd) ?_)⟩
        exact AList.lookup_erase _ _
      · intro (hpos : 0 < d.sz)
        exact ⟨fun _ _ _ => rfl, fun _ => decide_eq_false (by omega)⟩

/-- What `hdel` says, and that it says no without doing anything. -/
theorem yields_dispatchHDEL (s : StagingArea) (key field : Bytes) :
    Yields (dispatchHDEL key [field]) s
      (fun reply s' => isError reply = isOther s.store key .kHash ∧
        (isOther s.store key .kHash = true → s' = s))
      fun _ => isOther s.store key .kHash = false := by
  unfold dispatchHDEL
  rw [yields_bind]
  refine (yields_hdel_checked key [field]).mono fun r s' ⟨hother, hok⟩ => ?_
  rw [yields_pure]
  cases ho : isOther s.store key .kHash with
  | true =>
    obtain ⟨rfl, rfl⟩ := hother ho
    exact ⟨rfl, fun _ => rfl⟩
  | false => exact ⟨isError_replyWith isError_integer (hok ho), nofun⟩

end

/-! ## The four commands -/

/-- The reply is an error and the store is another one, exactly if the request spoils. -/
def Spoils (spoiled : Bool) (s : StagingArea) (reply : Bytes) (s' : StagingArea) : Prop :=
  isError reply = true ∧ ¬Unchanged s.store s'.store ↔ spoiled = true

section

variable {s : StagingArea} {doubles : Doubles} {key field : Bytes}

theorem spoils_of_ok {reply : Bytes} {s' : StagingArea} (h : isError reply = false) :
    Spoils false s reply s' := by
  unfold Spoils
  rw [h]
  simp

theorem spoils_of_unchanged {reply : Bytes} {s' : StagingArea} (h : Unchanged s.store s'.store) :
    Spoils false s reply s' :=
  ⟨fun hs => absurd h hs.2, nofun⟩

/-- A command that stops before it writes spoils nothing. -/
theorem spoils_nothing {c : StagingM Bytes} (h : Spares (isError · = false) c)
    (s : StagingArea) : Yields c s (Spoils false s) fun _ => false = false := by
  refine ((h s).mono fun reply s' hr => ?_).weaken fun _ _ => rfl
  rcases hr with hr | rfl
  · exact spoils_of_ok hr
  · exact spoils_of_unchanged fun _ _ => rfl

theorem yields_reply {α : Type} {c : StagingM α} {reply : α → Bytes}
    {post : Bytes → StagingArea → Prop} {fault : Fault → Prop} :
    Yields (do return reply (← c)) s post fault ↔
      Yields c s (fun a s' => post (reply a) s') fault := yields_bind

/-- What ends well spoils nothing. -/
theorem spoils_of_returns {α : Type} {c : StagingM (Status × α)} {reply : α → Bytes}
    (hr : ∀ a, isError (reply a) = false) (hc : Returns (·.1 = .OK) c) (s0 : StagingArea) :
    Yields c s (fun a s' => Spoils false s0 (replyWith a reply) s') fun _ => false = false :=
  ((hc s).mono fun _ _ h => spoils_of_ok (isError_replyWith hr h)).weaken fun _ _ => rfl

/-- The size is written again, and the reply is an error. -/
theorem spoils_finalize_same {α : Type} {type : KeyType} {d : KeyDescriptor} {a : α}
    {reply : α → Bytes} (hd : descriptorOf s.store key = some d) (ht : d.keyType = type)
    (hvh : type ≠ .kVersionedHash) (hr : isError (reply a) = true) :
    Yields (do
        (WriteOperation.known key d type).finalize d.sz false
        return a) s
      (fun a s' => Spoils (decide (d.sz = 0)) s (reply a) s') fun _ => decide (d.sz = 0) = false := by
  rw [yields_bind]
  apply yields_finalize_same (decide_eq_true ht)
  · change d.keyType ≠ _
    rw [ht]
    exact hvh
  · intro (hneg : d.sz < 0) _
    exact decide_eq_false (by omega)
  · intro (h0 : d.sz = 0)
    rw [yields_pure, decide_eq_true h0]
    refine ⟨fun _ => rfl, fun _ => ⟨hr, changed_of_missing (by nofun) (stored_of_descriptorOf hd) ?_⟩⟩
    exact AList.lookup_erase _ _
  · intro (hpos : 0 < d.sz)
    rw [yields_pure, decide_eq_false (show ¬d.sz = 0 by omega)]
    exact spoils_of_unchanged fun _ _ => rfl

theorem spoils_increment {ν : Type} {parse : Bytes → Option ν} {readStart : Bytes → ν}
    {add : ν → ν → ν} {zero : ν} {toBytes : ν → Bytes} {malformedArg malformedValue : String}
    {incrby : Bytes} {reply : ν → Bytes} (hr : ∀ a, isError (reply a) = false) :
    Yields (do
        return replyWith (← increment parse readStart add zero toBytes malformedArg malformedValue
          key field incrby) reply) s
      (Spoils (countsNothing s.store key .kHash && isMalformed parse s.store key field incrby) s)
      fun _ =>
        (countsNothing s.store key .kHash && isMalformed parse s.store key field incrby) = false := by
  rw [yields_reply]
  unfold increment
  rcases hp : parse incrby with _ | incr
  · rw [isMalformed_of_none hp, Bool.and_false]
    exact spoils_of_unchanged fun _ _ => rfl
  have hret : ∀ (op : WriteOperation) (old : ν) (value : Option Bytes),
      Returns (fun r : Status × ν => r.1 = .OK) (do
      op.writeField field (toBytes (add old incr))
      op.finalize (sum64 op.keySize (if value.isSome then 0 else 1)) false
      return (.OK, add old incr)) :=
    fun _ _ _ => returns_bind fun _ => returns_bind fun _ => returns_pure rfl
  apply yields_withOperation
  · intro _ hd
    rw [countsNothing_of_none hd]
    rfl
  · intro hl
    rw [countsNothing_of_none (descriptorOf_of_none hl), Bool.false_and,
      WriteOperation.getField_eq rfl rfl, yields_bind, yields_lookup]
    dsimp only
    split
    · rw [yields_bind]
      exact (yields_finalize_gone rfl (by nofun)).mpr (spoils_of_unchanged (unchanged_delIn hl))
    · exact spoils_of_returns hr (hret _ _ _) s
  · intro ho
    rw [countsNothing_of_other ho]
    exact spoils_of_unchanged fun _ _ => rfl
  · intro d hd ht
    have hv : (WriteOperation.known key d .kHash).isValid = true := decide_eq_true ht
    have hb : (WriteOperation.known key d .kHash).keyinfo.keyType.bearsFields = true := by
      unfold WriteOperation.known
      rw [ht]
      rfl
    have hget : (WriteOperation.known key d .kHash).getField field =
        StagingArea.get (.field .kHash key field) := by
      rw [WriteOperation.getField_eq hv hb]
      exact congrArg (fun type => StagingArea.get (.field type key field)) ht
    have hm : isMalformed parse s.store key field incrby =
        (s.store.lookup (.field .kHash key field)).any fun value => (parse value).isNone := by
      unfold isMalformed
      rw [hp]
      rfl
    rw [countsNothing_of_some hd ht, hm, hget, yields_bind, yields_lookup]
    rcases hf : s.store.lookup (.field .kHash key field) with _ | value <;> rw [hf] <;> dsimp only
    · rw [Option.any_none, Bool.and_false]
      exact spoils_of_returns hr (hret _ _ none) s
    rw [Option.any_some]
    rcases parse value with _ | old
    · rw [Option.isNone_none, Bool.and_true]
      exact spoils_finalize_same hd ht (by nofun) rfl
    · rw [Option.isNone_some, Bool.and_false]
      exact spoils_of_returns hr (hret _ _ (some value)) s

theorem spoils_smove {source destination element : Bytes} :
    Yields (do return replyWith (← smove source destination element) integer) s
      (Spoils (countsNothing s.store source .kSet && isOther s.store destination .kSet) s)
      fun _ => (countsNothing s.store source .kSet && isOther s.store destination .kSet) = false := by
  rw [yields_reply]
  have hret : ∀ op1 op2 : WriteOperation, Returns (fun r : Status × Int => r.1 = .OK) (do
      if ← op1.deleteField element then
        op1.finalize (sum64 op1.keySize (-1)) false
        if ← op2.fieldExists element then
          op2.finalize op2.keySize false
        else
          op2.writeField element (ascii "1")
          op2.finalize (sum64 op2.keySize 1) false
        return (.OK, 1)
      else
        op1.finalize op1.keySize false
        op2.finalize op2.keySize false
        return (.OK, 0)) := by
    intro op1 op2
    refine returns_bind fun deleted => ?_
    split
    · refine returns_bind fun _ => returns_bind fun found => ?_
      dsimp only
      split
      · exact returns_bind fun _ => returns_pure rfl
      · exact returns_bind fun _ => returns_bind fun _ => returns_pure rfl
    · exact returns_bind fun _ => returns_bind fun _ => returns_pure rfl
  apply yields_withOperation
  · intro _ hd
    rw [countsNothing_of_none hd]
    rfl
  · intro hl
    rw [countsNothing_of_none (descriptorOf_of_none hl), Bool.false_and, yields_bind]
    apply yields_start
    · exact fun _ _ => rfl
    · exact fun _ => spoils_of_returns isError_integer (hret _ _) s
    · intro d hd
      cases hv : (WriteOperation.known destination d .kSet).isValid with
      | true => exact spoils_of_returns isError_integer (hret _ _) s
      | false =>
        rw [Bool.not_false, if_pos rfl, yields_bind]
        exact (yields_finalize_gone rfl (by nofun)).mpr (spoils_of_unchanged (unchanged_delIn hl))
  · intro ho
    rw [countsNothing_of_other ho]
    exact spoils_of_unchanged fun _ _ => rfl
  · intro d hd ht
    rw [yields_bind]
    apply yields_start
    · intro _ hn
      rw [isOther_of_none hn, Bool.and_false]
    · intro hl
      rw [isOther_of_none (descriptorOf_of_none hl), Bool.and_false]
      exact spoils_of_returns isError_integer (hret _ _) s
    · intro d' hd'
      cases hv : (WriteOperation.known destination d' .kSet).isValid with
      | true =>
        rw [isOther_of_type hd' (of_decide_eq_true hv), Bool.and_false]
        exact spoils_of_returns isError_integer (hret _ _) s
      | false =>
        have ho : isOther s.store destination .kSet = true := by
          rw [isOther_of_some hd']
          exact decide_eq_true (of_decide_eq_false hv)
        rw [ho, Bool.and_true, countsNothing_of_some hd ht, Bool.not_false, if_pos rfl]
        exact spoils_finalize_same hd ht (by nofun) rfl

/-- The fallback loses its field even when the first part went wrong. -/
theorem spoils_lhsetAndDelFallback {hint value fallback : Bytes} :
    Yields (do
        let resp ← dispatchLHSET key field hint value
        let _ ← dispatchHDEL fallback [field]
        return resp) s
      (Spoils (isOther s.store key .kLocalityHash && losesField s.store fallback field) s)
      fun _ => (isOther s.store key .kLocalityHash && losesField s.store fallback field) = false := by
  unfold dispatchLHSET
  rw [bind_assoc, yields_bind]
  refine ((yields_lhset_checked key field hint value).mono fun r s' ⟨hother, hok⟩ => ?_).weaken
    fun _ ho => ?_
  · rw [ho]
    rfl
  rw [pure_bind]
  cases ho : isOther s.store key .kLocalityHash with
  | true =>
    obtain ⟨rfl, rfl⟩ := hother ho
    unfold dispatchHDEL
    rw [bind_assoc, yields_bind, Bool.true_and]
    refine (yields_hdel_field s' fallback field).mono fun _ s'' hl => ?_
    rw [pure_bind, yields_pure]
    have hu : ¬Unchanged s'.store s''.store ↔ losesField s'.store fallback field = true := by
      rw [← hl, Bool.not_eq_false]
    exact ⟨fun h => hu.mp h.2, fun h => ⟨rfl, hu.mpr h⟩⟩
  | false =>
    have hret : Returns (isError · = false) (do
        let _ ← dispatchHDEL fallback [field]
        return replyWith r flag) :=
      returns_bind fun _ => returns_pure (isError_replyWith (fun _ => rfl) (hok ho))
    exact ((hret s').mono fun _ _ h => spoils_of_ok h).weaken fun _ _ => rfl

theorem isOther_delIn (s : StagingArea) (key fallback : Bytes) (type : KeyType) :
    isOther (s.delIn (.descriptor key)).store fallback type =
      (fallback ≠ key && isOther s.store fallback type) := by
  have hl : (s.delIn (.descriptor key)).store = s.store.erase (.descriptor key) := rfl
  by_cases hf : fallback = key
  · subst hf
    rw [isOther_of_none (descriptorOf_of_none (hl ▸ AList.lookup_erase _ _))]
    simp
  · have hne : StoreKey.descriptor fallback ≠ .descriptor key :=
      fun h => hf (StoreKey.descriptor.inj h)
    unfold isOther descriptorOf
    rw [hl, AList.lookup_erase_ne hne]
    simp [hf]

/-- One field is looked up by its index. -/
theorem yields_lhdelLoop_field {op : WriteOperation} {fault : Fault → Prop}
    (hv : op.isValid = true) (ht : op.keyinfo.keyType = .kLocalityHash)
    {post : Int → StagingArea → Prop}
    (hempty : op.redisKey.isEmpty = true ∨ field.isEmpty = true → ∀ e, fault e)
    (hin : (s.store.lookup (.localityIndex op.redisKey field)).isSome = true →
      (∀ e, fault e) ∧ ∀ s', post 1 s')
    (hout : op.redisKey.isEmpty = false → field.isEmpty = false →
      (s.store.lookup (.localityIndex op.redisKey field)).isSome = false → post 0 s) :
    Yields (lhdelLoop op [field]) s post fault := by
  unfold lhdelLoop WriteOperation.getAndDeleteLocalityIndex
  rw [yields_bind, yields_bind, WriteOperation.assertLocality_valid hv ht, yields_pure, yields_bind]
  cases hk : op.redisKey.isEmpty with
  | true =>
    have hl : localityIndexKey op.redisKey field = .error (.assertion "!redisKey.empty()") := by
      unfold localityIndexKey
      rw [hk]
      rfl
    rw [hl]
    exact hempty (.inl hk) _
  | false =>
  cases hf : field.isEmpty with
  | true =>
    have hl : localityIndexKey op.redisKey field = .error (.assertion "!field.empty()") := by
      unfold localityIndexKey
      rw [hk, hf]
      rfl
    rw [hl]
    exact hempty (.inr hf) _
  | false =>
  have hl : localityIndexKey op.redisKey field = .ok (.localityIndex op.redisKey field) := by
    unfold localityIndexKey
    rw [hk, hf]
    rfl
  rw [hl, throwing_ok, yields_pure, yields_bind, yields_lookup]
  rcases hs : s.store.lookup (.localityIndex op.redisKey field) with _ | hint <;> rw [hs]
  · exact hout hk hf (by rw [hs]; rfl)
  · obtain ⟨hfault, hpost⟩ := hin (by rw [hs]; rfl)
    rw [Option.isSome_some, if_pos rfl, yields_bind, yields_del, yields_pure]
    dsimp only
    have hret : Returns (· = (1 : Int)) (do
        assertThat (← op.deleteLocalityField hint field) "operation.deleteLocalityField(hint, *it)"
        let removed ← lhdelLoop op []
        return removed + 1) := returns_bind fun _ => returns_bind fun _ => returns_pure rfl
    refine ((hret _).mono fun a s' ha => ?_).weaken fun e _ => hfault e
    rw [ha]
    exact hpost s'

theorem spoils_lhdelWithFallback {fallback : Bytes} :
    Yields (do
        let resp ← dispatchLHDEL key [field]
        if resp ≠ integer 1 then dispatchHDEL fallback [field] else return resp) s
      (Spoils (countsNothing s.store key .kLocalityHash && !key.isEmpty && !field.isEmpty &&
        (s.store.lookup (.localityIndex key field)).isNone &&
        (fallback ≠ key && isOther s.store fallback .kHash)) s)
      fun _ => (countsNothing s.store key .kLocalityHash && !key.isEmpty && !field.isEmpty &&
        (s.store.lookup (.localityIndex key field)).isNone &&
        (fallback ≠ key && isOther s.store fallback .kHash)) = false := by
  unfold dispatchLHDEL
  rw [bind_assoc, yields_bind]
  simp only [pure_bind]
  -- what happens once the first part found nothing to delete, and left `s1`
  have hfallback : ∀ (s1 : StagingArea) (resp : Bytes), resp ≠ integer 1 →
      Yields (if resp ≠ integer 1 then dispatchHDEL fallback [field] else return resp) s1
        (fun reply s' => isError reply = isOther s1.store fallback .kHash ∧
          (isOther s1.store fallback .kHash = true → s' = s1))
        fun _ => isOther s1.store fallback .kHash = false := by
    intro s1 resp hne
    rw [if_pos hne]
    exact yields_dispatchHDEL s1 fallback field
  have hunspoilt : ∀ (s1 : StagingArea) (resp : Bytes), resp ≠ integer 1 →
      Unchanged s.store s1.store →
      Yields (if resp ≠ integer 1 then dispatchHDEL fallback [field] else return resp) s1
        (Spoils false s) fun _ => false = false := by
    intro s1 resp hne hu
    refine ((hfallback s1 resp hne).mono fun reply s' ⟨hreply, hsame⟩ => ?_).weaken fun _ _ => rfl
    cases ho : isOther s1.store fallback .kHash with
    | true =>
      rw [hsame ho]
      exact spoils_of_unchanged hu
    | false => exact spoils_of_ok (hreply.trans ho)
  have hdeleted : ∀ op : WriteOperation, ∀ s1 : StagingArea,
      Yields (do
        op.finalize (sum64 op.keySize (-1)) false
        return (Status.OK, (1 : Int))) s1
        (fun r s' => Yields (if replyWith r integer ≠ integer 1 then dispatchHDEL fallback [field]
          else return replyWith r integer) s' (Spoils false s) fun _ => false = false)
        fun _ => false = false := by
    intro op s1
    have hret : Returns (· = (Status.OK, (1 : Int))) (do
        op.finalize (sum64 op.keySize (-1)) false
        return (Status.OK, (1 : Int))) := returns_bind fun _ => returns_pure rfl
    refine ((hret s1).mono fun r s' hr => ?_).weaken fun _ _ => rfl
    rw [hr, if_neg (by decide), yields_pure]
    exact spoils_of_ok rfl
  generalize hX : (countsNothing s.store key .kLocalityHash && !key.isEmpty && !field.isEmpty &&
    (s.store.lookup (.localityIndex key field)).isNone &&
    (fallback ≠ key && isOther s.store fallback .kHash)) = spoiled
  apply yields_withOperation
  · intro _ hd
    rw [← hX, countsNothing_of_none hd]
    rfl
  · intro hl
    obtain rfl : spoiled = false := by
      rw [← hX, countsNothing_of_none (descriptorOf_of_none hl)]
      rfl
    rw [yields_bind]
    apply yields_lhdelLoop_field rfl rfl
    · exact fun _ _ => rfl
    · exact fun _ => ⟨fun _ => rfl, hdeleted _⟩
    · intro _ _ _
      rw [yields_bind]
      refine (yields_finalize_gone rfl (by nofun)).mpr ?_
      exact hunspoilt _ (integer 0) (by decide) (unchanged_delIn hl)
  · intro ho
    obtain rfl : spoiled = false := by
      rw [← hX, countsNothing_of_other ho]
      rfl
    exact hunspoilt _ _ (by decide) fun _ _ => rfl
  · intro d hd ht
    obtain ⟨bytes, -, hb⟩ := lookup_of_descriptorOf hd
    have hv : (WriteOperation.known key d .kLocalityHash).isValid = true := decide_eq_true ht
    rw [countsNothing_of_some hd ht] at hX
    rw [yields_bind]
    apply yields_lhdelLoop_field hv ht
    · intro he _
      rw [← hX]
      rcases he with (hk : key.isEmpty = true) | hf
      · simp [hk]
      · simp [hf]
    · intro (hi : (s.store.lookup (.localityIndex key field)).isSome = true)
      obtain rfl : spoiled = false := by
        rw [← hX, Option.isNone_eq_false_iff.mpr hi]
        simp
      exact ⟨fun _ => rfl, hdeleted _⟩
    · intro (hk : key.isEmpty = false) hf
        (hi : (s.store.lookup (.localityIndex key field)).isSome = false)
      have hz : sum64 (WriteOperation.known key d .kLocalityHash).keySize (-0) = d.sz :=
        sum64_zero_of_ofBytes hb
      rw [yields_bind, hz]
      apply yields_finalize_same hv
      · change d.keyType ≠ _
        rw [ht]
        nofun
      · intro (hneg : d.sz < 0) _
        rw [← hX, decide_eq_false (show ¬d.sz = 0 by omega)]
        rfl
      · intro (h0 : d.sz = 0)
        have hn : (s.store.lookup (.localityIndex key field)).isNone = true := by simpa using hi
        rw [decide_eq_true h0, hk, hf, hn, Bool.not_false, Bool.and_true, Bool.and_true,
          Bool.and_true, Bool.true_and] at hX
        have hfb := hfallback (s.delIn (.descriptor key)) (integer 0) (by decide)
        rw [isOther_delIn, hX] at hfb
        refine hfb.mono fun reply s' ⟨hreply, hsame⟩ => ?_
        unfold Spoils
        rw [hreply]
        refine ⟨fun h => h.1, fun h => ⟨h, ?_⟩⟩
        rw [hsame h]
        exact changed_of_missing (by nofun) (stored_of_descriptorOf hd) (AList.lookup_erase _ _)
      · intro (hpos : 0 < d.sz)
        obtain rfl : spoiled = false := by
          rw [← hX, decide_eq_false (show ¬d.sz = 0 by omega)]
          rfl
        exact hunspoilt _ (integer 0) (by decide) fun _ _ => rfl

end

/-! ## All writes -/

/-- The commands on leases, as clients send them and as they go into the journal. -/
def isLease : RedisCommand → Bool
  | .LEASE_ACQUIRE | .LEASE_GET | .LEASE_RELEASE => true
  | .TIMESTAMPED_LEASE_ACQUIRE | .TIMESTAMPED_LEASE_GET | .TIMESTAMPED_LEASE_RELEASE => true
  | _ => false

theorem spares_replyWith {α : Type} {c : StagingM (Status × α)} {reply : α → Bytes}
    (hc : Spares (·.1 = .OK) c) (hr : ∀ a, isError (reply a) = false) :
    Spares (isError · = false) (do return replyWith (← c) reply) :=
  hc.map fun _ hok => isError_replyWith hr hok

theorem spares_fromStatus {c : StagingM Status} (hc : Spares (· = .OK) c) :
    Spares (isError · = false) (do return fromStatus (← c)) :=
  hc.map fun _ hok => isError_fromStatus hok

theorem spares_integer (c : StagingM Int) :
    Spares (isError · = false) (do return integer (← c)) :=
  Returns.spares (returns_bind fun _ => returns_pure rfl)

theorem spares_replyOrNull {α : Type} {c : StagingM (Status × α)} {reply : α → Bytes}
    (hc : Spares (fun r => r.1 = .OK ∨ r.1 = .NotFound) c) (hr : ∀ a, isError (reply a) = false) :
    Spares (isError · = false) (do return replyOrNull (← c) reply) :=
  hc.map fun _ hok => isError_replyOrNull hr hok

theorem spares_flushall : Spares (· = .OK) flushall :=
  Returns.spares (returns_bind fun _ => returns_bind fun _ => returns_pure rfl)

theorem spares_configSet (key value : Bytes) : Spares (· = .OK) (configSet key value) :=
  Returns.spares (returns_bind fun _ => returns_pure rfl)

theorem spares_artificiallySlowWriteNeverUseThis (sleepStr : Bytes) :
    Spares (· = .OK) (artificiallySlowWriteNeverUseThis sleepStr) := by
  unfold artificiallySlowWriteNeverUseThis
  split
  · exact spares_pure _
  · split <;> exact spares_pure _

theorem unspoilt_pure (reply : Bytes) (s : StagingArea) :
    Yields (pure reply : StagingM Bytes) s (Spoils false s) fun _ => false = false :=
  spoils_of_unchanged fun _ _ => rfl

/-- A write that is no transaction and no operation on a lease is answered with an error and
changes the store exactly if it spoils. -/
theorem spoils_dispatchCommand (doubles : Doubles) {request : RedisRequest}
    (hl : isLease (getCommand request) = false) (s : StagingArea) :
    Yields (dispatchCommand doubles request) s (Spoils (spoils doubles s.store request) s)
      fun _ => spoils doubles s.store request = false := by
  unfold dispatchCommand spoils
  dsimp only
  generalize getCommand request = command at hl
  generalize request.tail = args
  split
  · exact spoils_nothing (spares_fromStatus (spares_flushall)) s
  · exact unspoilt_pure _ s
  · exact spoils_nothing (spares_fromStatus (spares_set _)) s
  · exact unspoilt_pure _ s
  · exact spoils_nothing (spares_integer _) s
  · exact unspoilt_pure _ s
  · exact spoils_nothing (spares_replyWith (spares_hset _ _) isError_flag) s
  · exact unspoilt_pure _ s
  · exact spoils_nothing (spares_replyWith (spares_hsetnx _ _) isError_flag) s
  · exact unspoilt_pure _ s
  · split
    · exact unspoilt_pure _ s
    · exact spoils_nothing (spares_fromStatus (spares_hmset _)) s
  · exact unspoilt_pure _ s
  · exact spoils_increment isError_integer
  · rename_i hne
    split <;> first
      | exact unspoilt_pure _ s
      | exact (hne _ _ _ rfl).elim
      | contradiction
  · split
    · exact unspoilt_pure _ s
    · exact spoils_nothing (spares_integer _) s
  · exact spoils_increment fun _ => isError_string _
  · rename_i hne
    split <;> first
      | exact unspoilt_pure _ s
      | exact (hne _ _ _ rfl).elim
      | contradiction
  · exact spoils_nothing (spares_replyWith (spares_deleteFields _) isError_integer) s
  · exact unspoilt_pure _ s
  · exact spoils_nothing (spares_fromStatus (spares_hclone _ _)) s
  · exact unspoilt_pure _ s
  · exact spoils_nothing (spares_replyWith (spares_sadd _) isError_integer) s
  · exact unspoilt_pure _ s
  · exact spoils_nothing (spares_replyWith (spares_deleteFields _) isError_integer) s
  · exact unspoilt_pure _ s
  · exact spoils_smove
  · rename_i hne
    split <;> first
      | exact unspoilt_pure _ s
      | exact (hne _ _ _ rfl).elim
      | contradiction
  · exact spoils_nothing (spares_replyWith (spares_dequePush _ _) isError_integer) s
  · exact unspoilt_pure _ s
  · exact spoils_nothing (spares_replyWith (spares_dequePush _ _) isError_integer) s
  · exact unspoilt_pure _ s
  · exact spoils_nothing (spares_replyOrNull (spares_dequePop _) isError_string) s
  · exact unspoilt_pure _ s
  · exact spoils_nothing (spares_replyOrNull (spares_dequePop _) isError_string) s
  · exact unspoilt_pure _ s
  · exact spoils_nothing (spares_replyWith (spares_dequeTrimFront _) isError_integer) s
  · exact unspoilt_pure _ s
  · exact spoils_nothing (spares_replyWith (spares_dequeTrimFront _) isError_integer) s
  · exact unspoilt_pure _ s
  · exact spoils_nothing (spares_fromStatus (spares_configSet _ _)) s
  · exact unspoilt_pure _ s
  · exact spoils_nothing (spares_replyWith (spares_lhset _ _ _) isError_flag) s
  · exact unspoilt_pure _ s
  · exact spoils_nothing (spares_replyWith (spares_lhdel _) isError_integer) s
  · exact unspoilt_pure _ s
  · exact spoils_nothing (spares_replyWith (spares_lhlocdel _ _) isError_integer) s
  · exact unspoilt_pure _ s
  · split
    · exact unspoilt_pure _ s
    · exact spoils_nothing (spares_fromStatus (spares_lhmset _)) s
  · exact unspoilt_pure _ s
  · exact spoils_lhsetAndDelFallback
  · rename_i hne
    split <;> first
      | exact unspoilt_pure _ s
      | exact (hne _ _ _ _ _ rfl).elim
      | contradiction
  · exact spoils_lhdelWithFallback
  · rename_i hne
    split <;> first
      | exact unspoilt_pure _ s
      | exact (hne _ _ _ rfl).elim
      | contradiction
  · exact spoils_nothing (spares_convertHashFieldToLhash _ _ _ _) s
  · exact unspoilt_pure _ s
  · cases hl
  · cases hl
  · cases hl
  · cases hl
  · cases hl
  · cases hl
  · exact spoils_nothing (spares_fromStatus (spares_artificiallySlowWriteNeverUseThis _)) s
  · exact unspoilt_pure _ s
  · exact spoils_nothing (spares_replyWith (spares_vhset _ _) fun _ => isError_integer _) s
  · exact unspoilt_pure _ s
  · exact spoils_nothing (spares_replyWith (spares_vhdel _) fun _ => isError_integer _) s
  · exact unspoilt_pure _ s
  · change _ = false
    split
    all_goals first | rfl | contradiction

theorem commitTransaction_unchanged {m m' : Machine} {s : StagingArea} {commit : Int}
    (h : commitTransaction m s commit = .ok m') : Unchanged s.store m'.store := by
  intro k hk
  unfold commitTransaction at h
  split at h
  · cases h
  split at h
  · split at h <;> cases h
    exact AList.lookup_insert_ne hk
  · cases h
    rfl

/-- There is an index that the batch can be committed with. -/
theorem exists_commitTransaction (m : Machine) (s : StagingArea) :
    ∃ commit m', commitTransaction m s commit = .ok m' := by
  by_cases h : 0 < m.lastApplied
  · refine ⟨m.lastApplied + 1, ?_⟩
    unfold commitTransaction
    rw [if_neg (by omega), if_pos (by omega), if_neg (by omega)]
    exact ⟨_, rfl⟩
  · refine ⟨0, ?_⟩
    unfold commitTransaction
    rw [if_neg (fun hc => h hc.2), if_neg (by omega)]
    exact ⟨_, rfl⟩

/-- A write that answers with an error changes nothing, exactly if it is none of those that
go on after they failed. -/
theorem an_error_changes_nothing_iff (doubles : Doubles)
    (dispatchRead : StagingArea → RedisRequest → Except Fault Bytes) (m : Machine)
    {request : RedisRequest} (ht : getCommandType request = .WRITE)
    (htx : getCommand request ≠ .TX_READWRITE) (hl : isLease (getCommand request) = false) :
    (∀ commit reply m', dispatch doubles dispatchRead m request commit = .ok (reply, m') →
      isError reply = true → ∀ k ≠ .lastApplied, m'.store.lookup k = m.store.lookup k) ↔
      spoils doubles m.store request = false := by
  have hd := spoils_dispatchCommand doubles hl (stage m)
  have hcommit : ∀ commit, dispatch doubles dispatchRead m request commit =
      commitAfter m true commit (dispatchCommand doubles request) := by
    intro commit
    rw [dispatch_of_write doubles dispatchRead ht, dispatchOne_of_write doubles dispatchRead ht htx]
  unfold Yields at hd
  constructor
  · intro h
    by_contra hs
    have hs : spoils doubles m.store request = true := eq_true_of_ne_false hs
    rcases hc : dispatchCommand doubles request (stage m) with e | ⟨reply, s⟩ <;> rw [hc] at hd
    · have hd : spoils doubles m.store request = false := hd
      rw [hs] at hd
      cases hd
    obtain ⟨herr, hchanged⟩ := hd.mpr hs
    obtain ⟨commit, m', hm⟩ := exists_commitTransaction m s
    have hrun : dispatch doubles dispatchRead m request commit = .ok (reply, m') := by
      rw [hcommit]
      unfold commitAfter
      rw [bind_of_ok (show (dispatchCommand doubles request).run (stage m) = _ from hc)]
      dsimp only
      rw [if_pos rfl, hm]
      rfl
    refine hchanged fun k hk => ?_
    rw [← commitTransaction_unchanged hm k hk]
    exact h commit reply m' hrun herr k hk
  · intro hs commit reply m' hrun herr k hk
    rw [hcommit] at hrun
    obtain ⟨⟨reply', s⟩, hc, hrun⟩ := ok_of_bind hrun
    dsimp only at hrun
    rw [if_pos rfl] at hrun
    obtain ⟨m1, hm, hrun⟩ := ok_of_bind hrun
    cases hrun
    rw [show dispatchCommand doubles request (stage m) = _ from hc] at hd
    have hu : Unchanged m.store s.store := by
      by_contra hchanged
      have hspoils := hd.mp ⟨herr, hchanged⟩
      rw [show spoils doubles (stage m).store request = false from hs] at hspoils
      cases hspoils
    rw [commitTransaction_unchanged hm k hk]
    exact hu k hk

/-- A malformed value under a counter of one: the reply is an error, and all is as it was. -/
theorem a_malformed_value_is_left_alone :
    let request := [ascii "HINCRBY", ascii "h", ascii "f", ascii "1"]
    ∃ m : Machine,
      (do
        let (_, m) ← dispatch wholeDoubles readsNothing
          { store := ∅, expirationCache := [], lastApplied := 0 }
          [ascii "HSET", ascii "h", ascii "f", ascii "v"] 0
        return m) = .ok m ∧
      (∃ reply m', dispatch wholeDoubles readsNothing m request 0 = .ok (reply, m') ∧
        isError reply = true) ∧
      ∀ commit reply m', dispatch wholeDoubles readsNothing m request commit = .ok (reply, m') →
        isError reply = true → ∀ k ≠ .lastApplied, m'.store.lookup k = m.store.lookup k := by
  intro request
  obtain ⟨hok, ht, htx, hl⟩ :
      Except.map (fun m : Machine =>
        ((dispatch wholeDoubles readsNothing m request 0).map fun r => isError r.1,
          spoils wholeDoubles m.store request)) (do
        let (_, m) ← dispatch wholeDoubles readsNothing
          { store := ∅, expirationCache := [], lastApplied := 0 }
          [ascii "HSET", ascii "h", ascii "f", ascii "v"] 0
        return m) = .ok (.ok true, false) ∧
      getCommandType request = .WRITE ∧ getCommand request ≠ .TX_READWRITE ∧
      isLease (getCommand request) = false := by decide +kernel
  obtain ⟨m, hrun, hshows⟩ := exists_of_map_ok hok
  obtain ⟨hreply, hspoils⟩ := Prod.mk.inj hshows
  obtain ⟨⟨reply, m'⟩, hd, herr⟩ := exists_of_map_ok hreply
  exact ⟨m, hrun, ⟨reply, m', hd, herr⟩,
    (an_error_changes_nothing_iff wholeDoubles readsNothing m ht htx hl).mpr hspoils⟩

/-- The key is no locality hash, and the field is deleted from the fallback all the same. -/
theorem a_failed_write_deletes_the_fallback :
    let request := [ascii "LHSET_AND_DEL_FALLBACK", ascii "k", ascii "f", ascii "hint", ascii "x",
      ascii "h"]
    ∃ m : Machine,
      (do
        let (_, m) ← dispatch wholeDoubles readsNothing
          { store := ∅, expirationCache := [], lastApplied := 0 }
          [ascii "SET", ascii "k", ascii "1"] 0
        let (_, m) ← dispatch wholeDoubles readsNothing m
          [ascii "HSET", ascii "h", ascii "f", ascii "v"] 0
        return m) = .ok m ∧
      ¬∀ commit reply m', dispatch wholeDoubles readsNothing m request commit = .ok (reply, m') →
        isError reply = true → ∀ k ≠ .lastApplied, m'.store.lookup k = m.store.lookup k := by
  intro request
  have hok : Except.map (fun m : Machine =>
        (m.store.lookup (.field .kHash (ascii "h") (ascii "f")),
          (dispatch wholeDoubles readsNothing m request 0).map fun r =>
            (isError r.1, r.2.store.lookup (.field .kHash (ascii "h") (ascii "f"))))) (do
        let (_, m) ← dispatch wholeDoubles readsNothing
          { store := ∅, expirationCache := [], lastApplied := 0 }
          [ascii "SET", ascii "k", ascii "1"] 0
        let (_, m) ← dispatch wholeDoubles readsNothing m
          [ascii "HSET", ascii "h", ascii "f", ascii "v"] 0
        return m) = .ok (some (ascii "v"), .ok (true, none)) := by decide +kernel
  obtain ⟨m, hrun, hshows⟩ := exists_of_map_ok hok
  obtain ⟨hstored, hreply⟩ := Prod.mk.inj hshows
  obtain ⟨⟨reply, m'⟩, hd, hshows⟩ := exists_of_map_ok hreply
  obtain ⟨herr, hgone⟩ := Prod.mk.inj hshows
  refine ⟨m, hrun, fun h => ?_⟩
  have hkept := h 0 reply m' hd herr (.field .kHash (ascii "h") (ascii "f")) nofun
  rw [hgone, hstored] at hkept
  cases hkept

end quarkdb
