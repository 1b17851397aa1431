-- Keys that are single-deleted: those of the expirations of leases. What is written under
-- them is traced, and is a put and a single delete in turn, unless FLUSHALL finds one.
import QuarkDB.Restarts
import QuarkDB.Tracing

namespace quarkdb

open StateMachine StagingArea Outcome RedisDispatcher

/-! ## What is written -/

/-- The writes of a staging area. -/
inductive Write
  | put
  | singleDelete
  | del
  deriving Repr, DecidableEq

/-- A write under the key of the expiration of a lease. -/
structure EventWrite where
  deadline : UInt64
  key : Bytes
  write : Write
  deriving Repr, DecidableEq

/-- What was written under one of these keys. -/
def writesTo (deadline : UInt64) (key : Bytes) (writes : List EventWrite) : List Write :=
  (writes.filter fun e => e.deadline = deadline ∧ e.key = key).map EventWrite.write

/-- A put, a single delete, a put, and so on. -/
def Alternates (writes : List Write) : Prop :=
  ∀ i (h : i < writes.length), writes[i] = if i % 2 = 0 then .put else .singleDelete

/-- Commands, with a trace of what they write under the keys of expirations. -/
abbrev TracedM := StateT (Traced StagingArea EventWrite) (Except Fault)

/-! ## Commands that may end leases -/

namespace EventWrites

/-- `stagingArea.put`, for the key of an expiration. -/
def putEvent (deadline : UInt64) (key : Bytes) : TracedM Unit := do
  note { deadline, key, write := .put }
  plain (put (.expirationEvent deadline key) (ascii "1"))

/-- `stagingArea.singleDelete`. -/
def singleDelete (deadline : UInt64) (key : Bytes) : TracedM Unit := do
  note { deadline, key, write := .singleDelete }
  plain (StagingArea.del (.expirationEvent deadline key))

/-- `stagingArea.del`, for a key that may be one of an expiration. -/
def del (k : StoreKey) : TracedM Unit :=
  match k with
  | .expirationEvent deadline key => do
    note { deadline, key, write := .del }
    plain (StagingArea.del k)
  | _ => plain (StagingArea.del k)

def delAll : List StoreKey → TracedM Unit
  | [] => pure ()
  | k :: rest => do
    del k
    delAll rest

def withOperation {α : Type} (key : Bytes) (type : KeyType) (otherwise : α)
    (body : WriteOperation → TracedM α) : TracedM α := do
  let operation ← plain (WriteOperation.start key type)
  if operation.isValid then body operation else return otherwise

def leaseRelease (key : Bytes) : TracedM Status :=
  withOperation key .kLease wrongType fun operation => do
    if !operation.redisKeyExists then
      plain (operation.finalize 0 false)
      return .NotFound
    else
      plain (mustExist (.expirationEvent operation.keyinfo.endIndex key))
      plain (cacheRemove operation.keyinfo.endIndex key)
      singleDelete operation.keyinfo.endIndex key
      plain (mustExist (.lease key))
      plain (StagingArea.del (.lease key))
      plain (operation.finalize 0 false)
      return .OK

def releaseExpired : Nat → UInt64 → TracedM Unit
  | 0, _ => pure ()
  | fuel + 1, newValue => do
    match (← plain (MonadState.get : StagingM StagingArea)).expirationCache with
    | [] => pure ()
    | (deadline, key) :: _ =>
      if deadline ≤ newValue then
        let st ← leaseRelease key
        plain (assertThat st.ok "lease_release(stagingArea, front, ClockValue(0)).ok()")
        releaseExpired fuel newValue

def advanceClock (newValue : UInt64) : TracedM Unit := do
  let prevValue ← plain getClock
  if newValue < prevValue then
    throw (.thrown "Attempted to set state machine clock in the past: ")
  let s ← plain (MonadState.get : StagingM StagingArea)
  releaseExpired s.expirationCache.length newValue
  plain (put .clock (unsignedIntToBinaryString newValue))

def maybeAdvanceClock (clockUpdate : UInt64) : TracedM UInt64 := do
  let currentClock ← plain getClock
  if currentClock < clockUpdate then
    advanceClock clockUpdate
    return clockUpdate
  else return currentClock

def lease_release (key : Bytes) (clockUpdate : UInt64) : TracedM Status := do
  if clockUpdate ≠ 0 then
    let _ ← maybeAdvanceClock clockUpdate
  leaseRelease key

def lease_get (key : Bytes) (clockUpdate : UInt64) : TracedM (Status × Bytes × UInt64) := do
  let _ ← maybeAdvanceClock clockUpdate
  let keyinfo ← plain (getKeyDescriptor key)
  if keyinfo.empty then return (.NotFound, [], 0)
  else if keyinfo.keyType ≠ .kLease then return (wrongType, [], 0)
  else
    match ← plain (get (.lease key)) with
    | none => throw (.thrown "NotFound: ")
    | some value => return (.OK, value, keyinfo.endIndex)

def lease_acquire (key value : Bytes) (clockUpdate duration : UInt64) :
    TracedM (LeaseAcquisitionStatus × Bytes × UInt64) := do
  plain (assertThat (!value.isEmpty) "!value.empty()")
  let clockUpdate ← maybeAdvanceClock clockUpdate
  withOperation key .kLease (.kKeyTypeMismatch, [], 0) fun operation => do
    let oldLeaseHolder ← plain (get (.lease key))
    if oldLeaseHolder.isSome ∧ oldLeaseHolder ≠ some value then
      return (.kFailedDueToOtherOwner, oldLeaseHolder.getD [], operation.keyinfo.endIndex)
    else
      let descriptor := operation.keyinfo
      if operation.redisKeyExists then
        plain (cacheRemove descriptor.endIndex key)
        plain (mustExist (.expirationEvent descriptor.endIndex key))
        singleDelete descriptor.endIndex key
      let expirationTimestamp := clockUpdate + duration
      let descriptor := { descriptor with startIndex := clockUpdate, endIndex := expirationTimestamp }
      plain (cacheInsert expirationTimestamp key)
      putEvent expirationTimestamp key
      let operation := { operation with keyinfo := descriptor }
      plain (operation.write value)
      plain (operation.finalize value.length true)
      return (if operation.redisKeyExists then .kRenewed else .kAcquired, value, expirationTimestamp)

/-- The prefixes that are removed for a key hold no expiration. -/
def removeContents (key : Bytes) (keyInfo : KeyDescriptor) : TracedM Unit := do
  if keyInfo.keyType = .kLease then
    let st ← leaseRelease key
    if !st.ok then throw (.thrown "NotFound: ")
  else plain (StateMachine.removeContents key keyInfo)

def delKeys : List Bytes → TracedM Int
  | [] => return 0
  | key :: rest => do
    let keyInfo ← plain (getKeyDescriptor key)
    if keyInfo.empty then delKeys rest
    else
      removeContents key keyInfo
      plain (StagingArea.del (.descriptor key))
      let removed ← delKeys rest
      return removed + 1

def flushall : TracedM Status := do
  let s ← plain (MonadState.get : StagingM StagingArea)
  delAll (s.store.keys.filter isData)
  plain (modify fun s => { s with expirationCache := [] } : StagingM Unit)
  return .OK

def dispatchLeaseAcquire (key value durationStr timestampStr : Bytes) : TracedM Bytes :=
  match parseInt64 durationStr with
  | none => return Formatter.err (ascii "value is not an integer or out of range")
  | some duration =>
    if duration < 1 then return Formatter.err (ascii "value is not an integer or out of range")
    else do
      plain (assertThat (timestampStr.length = 8) "request[4].size() == 8u")
      let timestamp := binaryStringToUnsignedInt timestampStr
      match ← lease_acquire key value timestamp (UInt64.ofNat duration.toNat) with
      | (.kKeyTypeMismatch, _, _) =>
        return Formatter.err (ascii
          "Invalid Argument: WRONGTYPE Operation against a key holding the wrong kind of value")
      | (.kAcquired, _, _) => return Formatter.status (ascii "ACQUIRED")
      | (.kRenewed, _, _) => return Formatter.status (ascii "RENEWED")
      | (.kFailedDueToOtherOwner, holder, deadline) =>
        return Formatter.err (ascii "lease held by '" ++ holder ++ ascii "', time remaining " ++
          decimal (deadline - timestamp).toNat ++ ascii " ms")

def dispatchLeaseGet (key timestampStr : Bytes) : TracedM Bytes := do
  plain (assertThat (timestampStr.length = 8) "request[2].size() == 8u")
  let timestamp := binaryStringToUnsignedInt timestampStr
  let (st, holder, deadline) ← lease_get key timestamp
  if st.isNotFound then return Formatter.null
  else
    plain (assertThat st.ok "st.ok()")
    return Formatter.statusVector [ascii "HOLDER: " ++ holder,
      ascii "REMAINING: " ++ decimal (deadline - timestamp).toNat ++ ascii " ms"]

def dispatchLeaseRelease (key timestampStr : Bytes) : TracedM Bytes := do
  plain (assertThat (timestampStr.length = 8) "request[2].size() == 8u")
  let st ← lease_release key (binaryStringToUnsignedInt timestampStr)
  if st.isNotFound then return Formatter.null else return Formatter.fromStatus st

/-! ## Requests and batches -/

section

variable (doubles : Doubles)

/-- The other commands write nothing under the key of an expiration. -/
def dispatchCommand (request : RedisRequest) : TracedM Bytes :=
  match getCommand request, request.tail with
  | .FLUSHALL, [] => do return Formatter.fromStatus (← flushall)
  | .DEL, key :: keys => do return Formatter.integer (← delKeys (key :: keys))
  | .TIMESTAMPED_LEASE_ACQUIRE, [key, value, duration, timestamp] =>
    dispatchLeaseAcquire key value duration timestamp
  | .TIMESTAMPED_LEASE_GET, [key, timestamp] => dispatchLeaseGet key timestamp
  | .TIMESTAMPED_LEASE_RELEASE, [key, timestamp] => dispatchLeaseRelease key timestamp
  | _, _ => plain (RedisDispatcher.dispatchCommand doubles request)

variable (dispatchRead : StagingArea → RedisRequest → Except Fault Bytes)

def dispatchReadWrite : Nat → RedisRequest → TracedM Bytes
  | fuel, request =>
    if getCommandType request ≠ .WRITE then do
      plain (throwing (dispatchRead (← plain (MonadState.get : StagingM StagingArea)) request))
    else if getCommand request ≠ .TX_READWRITE then dispatchCommand doubles request
    else
      match fuel with
      | 0 => throw (.thrown "out of fuel")
      | fuel + 1 => do
        match ← plain (throwing (Transaction.deserialize request)) with
        | none => throw (.assertion "transaction.deserialize(request)")
        | some transaction =>
          plain (assertThat (transaction.requests.length ≠ 0) "itemsRemaining >= 1")
          let replies ← transaction.requests.mapM (dispatchReadWrite fuel)
          return buildResponse transaction.phantom replies

def dispatchAll (transaction : Transaction) : TracedM Bytes := do
  plain (assertThat (transaction.requests.length ≠ 0) "itemsRemaining >= 1")
  let replies ← transaction.requests.mapM fun request =>
    dispatchReadWrite doubles dispatchRead (bytesIn request) request
  return buildResponse transaction.phantom replies

/-- What is written goes to the store with the commit, after what was written before, or it
is dropped. -/
def dispatchTransaction (m : Machine) (written : List EventWrite) (transaction : Transaction)
    (commit : Int) : Except Fault ((Bytes × List EventWrite) × Machine) := do
  let (resp, t) ← (dispatchAll doubles dispatchRead transaction).run
    { area := stage m, writes := written }
  if transaction.containsWrites then return ((resp, t.writes), ← commitTransaction m t.area commit)
  else return ((resp, written), m)

/-- Batches, one after the other: the replies, what was written under the keys of
expirations, and what they lead to. -/
def applyBatches (mode : Mode) : Machine → List EventWrite → List Transaction →
    Except Fault ((List Bytes × List EventWrite) × Machine)
  | m, written, [] => .ok (([], written), m)
  | m, written, tx :: rest => do
    let ((reply, writes), m') ← dispatchTransaction doubles dispatchRead m written tx (mode.index m)
    let ((replies, writes), last) ← applyBatches mode m' writes rest
    return ((reply :: replies, writes), last)

end

/-! ## Without the trace -/

theorem tells_singleDelete (deadline : UInt64) (key : Bytes) :
    Tells (singleDelete deadline key) (StagingArea.del (.expirationEvent deadline key)) :=
  tells_note_bind (tells_plain _)

theorem tells_putEvent (deadline : UInt64) (key : Bytes) :
    Tells (putEvent deadline key) (put (.expirationEvent deadline key) (ascii "1")) :=
  tells_note_bind (tells_plain _)

theorem tells_del (k : StoreKey) : Tells (del k) (StagingArea.del k) := by
  unfold del
  cases k
  case expirationEvent => exact tells_note_bind (tells_plain _)
  all_goals exact tells_plain _

theorem tells_delAll (keys : List StoreKey) : Tells (delAll keys) (StagingArea.delAll keys) := by
  induction keys with
  | nil => exact tells_pure ()
  | cons k rest ih => exact tells_bind (tells_del k) fun _ => ih

theorem tells_withOperation {α : Type} {key : Bytes} {type : KeyType} {otherwise : α}
    {body : WriteOperation → TracedM α} {body' : WriteOperation → StagingM α}
    (h : ∀ op, Tells (body op) (body' op)) :
    Tells (withOperation key type otherwise body)
      (StateMachine.withOperation key type otherwise body') := by
  refine tells_bind (tells_plain _) fun op => ?_
  split
  · exact h op
  · exact tells_pure _

theorem tells_leaseRelease (key : Bytes) :
    Tells (leaseRelease key) (StateMachine.leaseRelease key) := by
  refine tells_withOperation fun op => ?_
  dsimp only
  split
  · exact tells_bind (tells_plain _) fun _ => tells_pure _
  refine tells_bind (tells_plain _) fun _ => ?_
  refine tells_bind (tells_plain _) fun _ => ?_
  refine tells_bind (tells_singleDelete _ _) fun _ => ?_
  refine tells_bind (tells_plain _) fun _ => ?_
  refine tells_bind (tells_plain _) fun _ => ?_
  exact tells_bind (tells_plain _) fun _ => tells_pure _

theorem tells_releaseExpired (fuel : Nat) (newValue : UInt64) :
    Tells (releaseExpired fuel newValue) (StateMachine.releaseExpired fuel newValue) := by
  induction fuel with
  | zero => exact tells_pure ()
  | succ fuel ih =>
    refine tells_bind (tells_plain _) fun s => ?_
    rcases s.expirationCache with _ | ⟨⟨deadline, key⟩, _⟩ <;> dsimp only
    · exact tells_pure ()
    split
    · refine tells_bind (tells_leaseRelease _) fun st => ?_
      exact tells_bind (tells_plain _) fun _ => ih
    · exact tells_pure ()

theorem tells_advanceClock (newValue : UInt64) :
    Tells (advanceClock newValue) (StateMachine.advanceClock newValue) := by
  refine tells_bind (tells_plain _) fun prevValue => ?_
  dsimp only
  split
  · exact tells_bind (tells_throw _) fun _ => tells_bind (tells_plain _) fun s =>
      tells_bind (tells_releaseExpired _ _) fun _ => tells_plain _
  · exact tells_bind (tells_plain _) fun s =>
      tells_bind (tells_releaseExpired _ _) fun _ => tells_plain _

theorem tells_maybeAdvanceClock (clockUpdate : UInt64) :
    Tells (maybeAdvanceClock clockUpdate) (StateMachine.maybeAdvanceClock clockUpdate) := by
  refine tells_bind (tells_plain _) fun currentClock => ?_
  split
  · exact tells_bind (tells_advanceClock _) fun _ => tells_pure _
  · exact tells_pure _

theorem tells_lease_release (key : Bytes) (clockUpdate : UInt64) :
    Tells (lease_release key clockUpdate) (StateMachine.lease_release key clockUpdate) := by
  unfold lease_release StateMachine.lease_release
  dsimp only
  split
  · exact tells_bind (tells_maybeAdvanceClock _) fun _ => tells_leaseRelease key
  · exact tells_leaseRelease key

theorem tells_lease_get (key : Bytes) (clockUpdate : UInt64) :
    Tells (lease_get key clockUpdate) (StateMachine.lease_get key clockUpdate) := by
  refine tells_bind (tells_maybeAdvanceClock _) fun _ => ?_
  refine tells_bind (tells_plain _) fun keyinfo => ?_
  split
  · exact tells_pure _
  split
  · exact tells_pure _
  refine tells_bind (tells_plain _) fun found => ?_
  split
  · exact tells_throw _
  · exact tells_pure _

theorem tells_lease_acquire (key value : Bytes) (clockUpdate duration : UInt64) :
    Tells (lease_acquire key value clockUpdate duration)
      (StateMachine.lease_acquire key value clockUpdate duration) := by
  refine tells_bind (tells_plain _) fun _ => ?_
  refine tells_bind (tells_maybeAdvanceClock _) fun now => ?_
  refine tells_withOperation fun op => ?_
  refine tells_bind (tells_plain _) fun oldLeaseHolder => ?_
  dsimp only
  split
  · exact tells_pure _
  split
  · refine tells_bind (tells_plain _) fun _ => ?_
    refine tells_bind (tells_plain _) fun _ => ?_
    refine tells_bind (tells_singleDelete _ _) fun _ => ?_
    refine tells_bind (tells_plain _) fun _ => ?_
    refine tells_bind (tells_putEvent _ _) fun _ => ?_
    refine tells_bind (tells_plain _) fun _ => ?_
    exact tells_bind (tells_plain _) fun _ => tells_pure _
  · refine tells_bind (tells_plain _) fun _ => ?_
    refine tells_bind (tells_putEvent _ _) fun _ => ?_
    refine tells_bind (tells_plain _) fun _ => ?_
    exact tells_bind (tells_plain _) fun _ => tells_pure _

theorem tells_removeContents (key : Bytes) (keyInfo : KeyDescriptor) :
    Tells (removeContents key keyInfo) (StateMachine.removeContents key keyInfo) := by
  unfold removeContents
  split
  · rename_i hl
    unfold StateMachine.removeContents
    rw [hl]
    refine tells_bind (tells_leaseRelease key) fun st => ?_
    split
    · exact tells_throw _
    · exact tells_pure _
  · exact tells_plain _

theorem tells_delKeys (keys : List Bytes) : Tells (delKeys keys) (StateMachine.delKeys keys) := by
  induction keys with
  | nil => exact tells_pure _
  | cons key rest ih =>
    refine tells_bind (tells_plain _) fun keyInfo => ?_
    split
    · exact ih
    refine tells_bind (tells_removeContents key keyInfo) fun _ => ?_
    refine tells_bind (tells_plain _) fun _ => ?_
    exact tells_bind ih fun _ => tells_pure _

theorem tells_flushall : Tells flushall StateMachine.flushall := by
  have hall : Tells (do
      let s ← plain (MonadState.get : StagingM StagingArea)
      delAll (s.store.keys.filter isData)
      return ((s.store.keys.filter isData).length : Int)) (removeAll isData) := by
    refine tells_bind (tells_plain _) fun s => ?_
    exact tells_bind (tells_delAll _) fun _ => tells_pure _
  have := tells_bind hall fun _ => tells_bind (tells_plain
    (modify fun s => { s with expirationCache := [] } : StagingM Unit)) fun _ => tells_pure Status.OK
  simp only [bind_assoc, pure_bind] at this
  exact this

theorem tells_dispatchCommand (doubles : Doubles) (request : RedisRequest) :
    Tells (dispatchCommand doubles request) (RedisDispatcher.dispatchCommand doubles request) := by
  unfold dispatchCommand
  split
  · rename_i hc ht
    unfold RedisDispatcher.dispatchCommand
    rw [hc, ht]
    exact tells_bind tells_flushall fun _ => tells_pure _
  · rename_i key keys hc ht
    unfold RedisDispatcher.dispatchCommand
    rw [hc, ht]
    exact tells_bind (tells_delKeys _) fun _ => tells_pure _
  · rename_i key value duration timestamp hc ht
    unfold RedisDispatcher.dispatchCommand
    rw [hc, ht]
    change Tells (dispatchLeaseAcquire key value duration timestamp)
      (RedisDispatcher.dispatchLeaseAcquire key value duration timestamp)
    unfold dispatchLeaseAcquire RedisDispatcher.dispatchLeaseAcquire
    rcases parseInt64 duration with _ | n <;> dsimp only
    · exact tells_pure _
    split
    · exact tells_pure _
    refine tells_bind (tells_plain _) fun _ => ?_
    refine tells_bind (tells_lease_acquire _ _ _ _) fun result => ?_
    rcases result with ⟨st, holder, deadline⟩
    cases st <;> exact tells_pure _
  · rename_i key timestamp hc ht
    unfold RedisDispatcher.dispatchCommand
    rw [hc, ht]
    refine tells_bind (tells_plain _) fun _ => ?_
    refine tells_bind (tells_lease_get _ _) fun result => ?_
    rcases result with ⟨st, holder, deadline⟩
    dsimp only
    split
    · exact tells_pure _
    · exact tells_bind (tells_plain _) fun _ => tells_pure _
  · rename_i key timestamp hc ht
    unfold RedisDispatcher.dispatchCommand
    rw [hc, ht]
    refine tells_bind (tells_plain _) fun _ => ?_
    refine tells_bind (tells_lease_release _ _) fun st => ?_
    split
    · exact tells_pure _
    · exact tells_pure _
  · exact tells_plain _

section

variable (doubles : Doubles) (dispatchRead : StagingArea → RedisRequest → Except Fault Bytes)

theorem tells_dispatchReadWrite (fuel : Nat) (request : RedisRequest) :
    Tells (dispatchReadWrite doubles dispatchRead fuel request)
      (RedisDispatcher.dispatchReadWrite doubles dispatchRead fuel request) := by
  induction fuel generalizing request with
  | zero =>
    unfold dispatchReadWrite RedisDispatcher.dispatchReadWrite
    split
    · exact tells_bind (tells_plain _) fun s => tells_plain _
    split
    · exact tells_dispatchCommand doubles request
    · exact tells_throw _
  | succ fuel ih =>
    unfold dispatchReadWrite RedisDispatcher.dispatchReadWrite
    split
    · exact tells_bind (tells_plain _) fun s => tells_plain _
    split
    · exact tells_dispatchCommand doubles request
    refine tells_bind (tells_plain _) fun o => ?_
    split
    · exact tells_throw _
    refine tells_bind (tells_plain _) fun _ => ?_
    exact tells_bind (tells_mapM fun inner _ => ih inner) fun _ => tells_pure _

theorem tells_dispatchAll (tx : Transaction) :
    Tells (dispatchAll doubles dispatchRead tx)
      (RedisDispatcher.dispatchAll doubles dispatchRead tx) := by
  refine tells_bind (tells_plain _) fun _ => ?_
  refine tells_bind (tells_mapM fun request _ => ?_) fun _ => tells_pure _
  exact tells_dispatchReadWrite doubles dispatchRead _ request

/-- A batch does what it does without the trace. -/
theorem dispatchTransaction_eq (m : Machine) (written : List EventWrite) (tx : Transaction)
    (commit : Int) :
    (dispatchTransaction doubles dispatchRead m written tx commit).map (fun r => (r.1.1, r.2)) =
      RedisDispatcher.dispatchTransaction doubles dispatchRead m tx commit := by
  unfold dispatchTransaction RedisDispatcher.dispatchTransaction commitAfter
  have htells := tells_dispatchAll doubles dispatchRead tx { area := stage m, writes := written }
  simp only [StateT.run]
  rw [← htells]
  rcases dispatchAll doubles dispatchRead tx { area := stage m, writes := written } with
    e | ⟨resp, t⟩
  · rfl
  by_cases hw : tx.containsWrites = true
  · simp only [Except.map, bind, Except.bind, hw, if_true]
    rcases commitTransaction m t.area commit with e | m'
    · rfl
    · rfl
  · simp only [Except.map, bind, Except.bind, if_neg hw]
    rfl

theorem applyBatches_eq (mode : Mode) (m : Machine) (written : List EventWrite)
    (batches : List Transaction) :
    (applyBatches doubles dispatchRead mode m written batches).map (fun r => (r.1.1, r.2)) =
      RedisDispatcher.applyBatches doubles dispatchRead mode m batches := by
  induction batches generalizing m written with
  | nil => rfl
  | cons tx rest ih =>
    unfold applyBatches RedisDispatcher.applyBatches
    rw [← dispatchTransaction_eq doubles dispatchRead m written]
    rcases dispatchTransaction doubles dispatchRead m written tx (mode.index m) with
      e | ⟨⟨reply, writes⟩, m'⟩
    · rfl
    simp only [Except.map, bind, Except.bind]
    rw [← ih m' writes]
    rcases applyBatches doubles dispatchRead mode m' writes rest with e | r
    · rfl
    · rfl

end

end EventWrites

/-! ## In turn -/

section

variable {deadline deadline' : UInt64} {key key' : Bytes} {writes : List EventWrite}

theorem writesTo_append (later : List EventWrite) :
    writesTo deadline key (writes ++ later) =
      writesTo deadline key writes ++ writesTo deadline key later := by
  unfold writesTo
  rw [List.filter_append, List.map_append]

theorem writesTo_snoc (write : Write) :
    writesTo deadline key (writes ++ [⟨deadline, key, write⟩]) =
      writesTo deadline key writes ++ [write] := by
  rw [writesTo_append]
  simp [writesTo]

theorem writesTo_snoc_other (write : Write) (h : (deadline', key') ≠ (deadline, key)) :
    writesTo deadline key (writes ++ [⟨deadline', key', write⟩]) =
      writesTo deadline key writes := by
  have hne : ¬ (deadline' = deadline ∧ key' = key) := fun he => h (by rw [he.1, he.2])
  rw [writesTo_append]
  simp [writesTo, hne]

theorem alternates_snoc {ws : List Write} {write : Write} (h : Alternates ws)
    (hw : write = if ws.length % 2 = 0 then .put else .singleDelete) :
    Alternates (ws ++ [write]) := by
  intro i hi
  rw [List.length_append, List.length_singleton] at hi
  rw [List.getElem_append]
  split
  · rename_i hlt
    exact h i hlt
  · rename_i hge
    have he : i = ws.length := by omega
    subst he
    simpa using hw

end

/-- After an odd number of writes, the last one was a put. -/
theorem Alternates.getLast? {ws : List Write} (h : Alternates ws) :
    ws.getLast? = some .put ↔ ws.length % 2 = 1 := by
  rcases List.eq_nil_or_concat' ws with rfl | ⟨ws, write, rfl⟩
  · simp
  · have hw := h ws.length (by simp)
    rw [List.getElem_concat_length rfl] at hw
    rw [List.getLast?_append, List.length_append, List.length_singleton, hw]
    split
    · rename_i he
      simp
      omega
    · rename_i he
      simp
      omega

/-- The writes alternate, and what is cached was put last. -/
structure Disciplined (t : Traced StagingArea EventWrite) : Prop where
  alternates : ∀ deadline key, Alternates (writesTo deadline key t.writes)
  cached : ∀ deadline key, (deadline, key) ∈ t.area.expirationCache ↔
    (writesTo deadline key t.writes).length % 2 = 1
  line : InLine t.area.expirationCache

section

variable {t t' : Traced StagingArea EventWrite} {deadline : UInt64} {key : Bytes}

theorem Disciplined.aside (h : Disciplined t)
    (hc : t'.area.expirationCache = t.area.expirationCache) (hw : t'.writes = t.writes) :
    Disciplined t' := by
  refine ⟨?_, ?_, ?_⟩
  · rw [hw]
    exact h.alternates
  · rw [hw, hc]
    exact h.cached
  · rw [hc]
    exact h.line

theorem Disciplined.put (h : Disciplined t) (hn : ∀ d, (d, key) ∉ t.area.expirationCache)
    (hc : t'.area.expirationCache = placed deadline key t.area.expirationCache)
    (hw : t'.writes = t.writes ++ [⟨deadline, key, .put⟩]) : Disciplined t' := by
  have hlast : (writesTo deadline key t.writes).length % 2 = 0 := by
    have := (h.cached deadline key).not.mp (hn deadline)
    omega
  refine ⟨fun d k => ?_, fun d k => ?_, ?_⟩
  · rw [hw]
    by_cases he : (deadline, key) = (d, k)
    · cases he
      rw [writesTo_snoc]
      exact alternates_snoc (h.alternates _ _) (by rw [hlast]; rfl)
    · rw [writesTo_snoc_other _ he]
      exact h.alternates d k
  · rw [hw, hc, mem_placed]
    by_cases he : (deadline, key) = (d, k)
    · cases he
      rw [writesTo_snoc, List.length_append, List.length_singleton]
      constructor
      · intro _
        omega
      · intro _
        exact .inl rfl
    · rw [writesTo_snoc_other _ he, ← h.cached d k]
      exact or_iff_right fun heq => he heq.symm
  · rw [hc]
    exact inLine_placed h.line hn

theorem Disciplined.singleDelete (h : Disciplined t)
    (hm : (deadline, key) ∈ t.area.expirationCache)
    (hc : t'.area.expirationCache = t.area.expirationCache.erase (deadline, key))
    (hw : t'.writes = t.writes ++ [⟨deadline, key, .singleDelete⟩]) :
    Disciplined t' := by
  have hlast : (writesTo deadline key t.writes).length % 2 = 1 := (h.cached deadline key).mp hm
  have honce : t.area.expirationCache.Nodup := List.Nodup.of_map _ h.line.once
  refine ⟨fun d k => ?_, fun d k => ?_, ?_⟩
  · rw [hw]
    by_cases he : (deadline, key) = (d, k)
    · cases he
      rw [writesTo_snoc]
      exact alternates_snoc (h.alternates _ _) (by rw [hlast]; rfl)
    · rw [writesTo_snoc_other _ he]
      exact h.alternates d k
  · rw [hw, hc, honce.mem_erase_iff]
    by_cases he : (deadline, key) = (d, k)
    · cases he
      rw [writesTo_snoc, List.length_append, List.length_singleton]
      constructor
      · intro hne
        exact absurd rfl hne.1
      · intro _
        omega
    · rw [writesTo_snoc_other _ he, ← h.cached d k]
      exact and_iff_right fun heq => he heq.symm
  · rw [hc]
    exact h.line.sublist List.erase_sublist

end

/-! ## What each command keeps -/

namespace EventWrites

/-- What is in the store does not matter to the cache. -/
theorem tolerates_cache (cache : List (UInt64 × Bytes)) (key : Bytes) (type : KeyType) :
    Tolerates (fun s => s.expirationCache = cache) key type :=
  ⟨fun _ _ _ _ _ h => h, fun _ _ _ _ h => h, fun _ _ _ _ _ h => h, fun _ h => h, fun _ _ h => h⟩

section

variable {α : Type} {deadline : UInt64} {key : Bytes}

theorem keeps_aside {c : StagingM α}
    (h : ∀ cache, Keeps (fun s => s.expirationCache = cache) (fun _ => True) c) :
    Keeps Disciplined (fun _ => True) (plain c) := by
  intro t ht
  rw [yields_plain]
  refine (h _ t.area rfl).mono fun _ s hs => ?_
  exact ht.aside hs rfl

theorem keeps_leaves {c : StagingM α}
    (h : ∀ cache, Leaves (fun s => s.expirationCache = cache) c) :
    Keeps Disciplined (fun _ => True) (plain c) :=
  keeps_aside fun cache => (h cache).weaken fun _ _ => trivial

theorem keeps_assertThat (holds : Bool) (condition : String) :
    Keeps Disciplined (fun _ => True) (plain (assertThat holds condition)) :=
  keeps_aside fun _ _ hs => yields_lift.mpr ⟨fun _ _ => hs, fun _ _ => trivial⟩

theorem keeps_started {type : KeyType} {otherwise : α} {body : WriteOperation → TracedM α}
    (h : ∀ op, Keeps Disciplined (fun _ => True) (body op)) :
    Keeps Disciplined (fun _ => True) (withOperation key type otherwise body) := by
  refine keeps_bind (keeps_aside fun cache => ?_) fun op => ?_
  · unfold WriteOperation.start
    refine keeps_bind ((leaves_getKeyDescriptor key).weaken fun _ _ => trivial) fun keyinfo => ?_
    split
    · exact keeps_pure _
    · exact keeps_pure _
  split
  · exact h op
  · exact keeps_pure _

theorem keeps_finalized (op : WriteOperation) (newsize : Int) (force : Bool) :
    Keeps Disciplined (fun _ => True) (plain (op.finalize newsize force)) :=
  keeps_leaves fun cache => leaves_finalize (opens_of rfl rfl (tolerates_cache cache _ _)) _ _

/-- A lease that is not cached can not be removed. -/
theorem keeps_removed {f : Unit → TracedM α}
    (h : ∀ t, Disciplined t → (deadline, key) ∈ t.area.expirationCache →
      Yields (f ()) { t with area :=
        { t.area with expirationCache := t.area.expirationCache.erase (deadline, key) } }
        (fun _ t' => Disciplined t') fun _ => True) :
    Keeps Disciplined (fun _ => True) (plain (cacheRemove deadline key) >>= f) := by
  intro t ht
  rw [yields_bind, yields_plain]
  by_cases hm : (deadline, key) ∈ t.area.expirationCache
  · rw [yields_cacheRemove hm]
    exact h t ht hm
  · unfold cacheRemove
    rw [yields_bind, yields_get, if_neg hm]
    trivial

/-- A lease that is cached can not be booked again. -/
theorem keeps_booked {f : Unit → TracedM α} (hf : Keeps Disciplined (fun _ => True) (f ())) :
    Keeps Disciplined (fun _ => True)
      (plain (cacheInsert deadline key) >>= fun _ => putEvent deadline key >>= f) := by
  intro t ht
  rw [yields_bind, yields_plain]
  by_cases hn : ∀ d, (d, key) ∉ t.area.expirationCache
  · rw [yields_cacheInsert hn, yields_bind]
    unfold putEvent
    rw [yields_bind, yields_note, yields_plain, yields_put]
    exact hf _ (ht.put hn rfl rfl)
  · have hany : (t.area.expirationCache.any fun e : UInt64 × Bytes => e.2 = key) = true := by
      obtain ⟨d, hm⟩ := not_forall_not.mp hn
      exact List.any_eq_true.mpr ⟨_, hm, decide_eq_true rfl⟩
    unfold cacheInsert
    rw [yields_bind, yields_get, yields_bind, hany]
    trivial

theorem keeps_leaseRelease (key : Bytes) :
    Keeps Disciplined (fun _ => True) (leaseRelease key) := by
  refine keeps_started fun op => ?_
  split
  · exact keeps_bind (keeps_finalized op _ _) fun _ => keeps_pure _
  refine keeps_bind (keeps_leaves fun _ => leaves_mustExist _) fun _ => ?_
  refine keeps_removed fun t ht hm => ?_
  unfold singleDelete
  rw [yields_bind, yields_bind, yields_note, yields_plain, yields_del]
  have hrest : Keeps Disciplined (fun _ => True) (do
      plain (mustExist (.lease key))
      plain (StagingArea.del (.lease key))
      plain (op.finalize 0 false)
      return Status.OK : TracedM Status) := by
    refine keeps_bind (keeps_leaves fun _ => leaves_mustExist _) fun _ => ?_
    refine keeps_bind (keeps_aside fun _ _ hs => hs) fun _ => ?_
    exact keeps_bind (keeps_finalized op _ _) fun _ => keeps_pure _
  exact hrest _ (ht.singleDelete hm rfl rfl)

theorem keeps_releaseExpired (fuel : Nat) (newValue : UInt64) :
    Keeps Disciplined (fun _ => True) (releaseExpired fuel newValue) := by
  induction fuel with
  | zero => exact keeps_pure _
  | succ fuel ih =>
    refine keeps_bind (keeps_aside fun _ _ hs => hs) fun s => ?_
    split
    · exact keeps_pure _
    split
    · refine keeps_bind (keeps_leaseRelease _) fun st => ?_
      exact keeps_bind (keeps_assertThat _ _) fun _ => ih
    · exact keeps_pure _

theorem keeps_clock : Keeps Disciplined (fun _ => True) (plain getClock) :=
  keeps_aside fun _ => keeps_getClock

theorem keeps_maybeAdvanceClock (clockUpdate : UInt64) :
    Keeps Disciplined (fun _ => True) (maybeAdvanceClock clockUpdate) := by
  refine keeps_bind keeps_clock fun currentClock => ?_
  split
  · refine keeps_bind ?_ fun _ => keeps_pure _
    refine keeps_bind keeps_clock fun prevValue => ?_
    dsimp only
    split
    · exact keeps_throw_bind trivial
    refine keeps_bind (keeps_aside fun _ _ hs => hs) fun s => ?_
    refine keeps_bind (keeps_releaseExpired _ _) fun _ => ?_
    exact keeps_aside fun _ _ hs => hs
  · exact keeps_pure _

theorem keeps_lease_release (key : Bytes) (clockUpdate : UInt64) :
    Keeps Disciplined (fun _ => True) (lease_release key clockUpdate) := by
  unfold lease_release
  split
  · exact keeps_bind (keeps_maybeAdvanceClock _) fun _ => keeps_leaseRelease key
  · exact keeps_leaseRelease key

theorem keeps_lease_get (key : Bytes) (clockUpdate : UInt64) :
    Keeps Disciplined (fun _ => True) (lease_get key clockUpdate) := by
  refine keeps_bind (keeps_maybeAdvanceClock _) fun _ => ?_
  refine keeps_bind (keeps_leaves fun _ => leaves_getKeyDescriptor key) fun keyinfo => ?_
  split
  · exact keeps_pure _
  split
  · exact keeps_pure _
  refine keeps_bind (keeps_leaves fun _ => leaves_get _) fun found => ?_
  split
  · exact keeps_throw trivial
  · exact keeps_pure _

theorem keeps_lease_acquire (key value : Bytes) (clockUpdate duration : UInt64) :
    Keeps Disciplined (fun _ => True) (lease_acquire key value clockUpdate duration) := by
  refine keeps_bind (keeps_assertThat _ _) fun _ => ?_
  refine keeps_bind (keeps_maybeAdvanceClock _) fun now => ?_
  refine keeps_started fun op => ?_
  refine keeps_bind (keeps_leaves fun _ => leaves_get _) fun oldLeaseHolder => ?_
  dsimp only
  split
  · exact keeps_pure _
  have hgrant : ∀ (op' : WriteOperation) (st : LeaseAcquisitionStatus),
      Keeps Disciplined (fun _ => True) (do
        plain (cacheInsert (now + duration) key)
        putEvent (now + duration) key
        plain (op'.write value)
        plain (op'.finalize value.length true)
        return (st, value, now + duration) : TracedM _) := by
    intro op' st
    refine keeps_booked ?_
    refine keeps_bind (keeps_leaves fun cache => ?_) fun _ => ?_
    · exact leaves_write (opens_of rfl rfl (tolerates_cache cache _ _)) value
    · exact keeps_bind (keeps_finalized op' _ _) fun _ => keeps_pure _
  split
  · refine keeps_removed fun t ht hm => ?_
    rw [yields_bind, yields_plain]
    have hlook : ∀ s0, Leaves (fun s => s = s0)
        (mustExist (.expirationEvent op.keyinfo.endIndex key)) := fun _ => leaves_mustExist _
    refine ((hlook _ _ rfl).weaken fun _ _ => trivial).mono fun _ s hs => ?_
    subst hs
    unfold singleDelete
    rw [yields_bind, yields_bind, yields_note, yields_plain, yields_del]
    exact hgrant _ _ _ (ht.singleDelete hm rfl rfl)
  · exact hgrant _ _

theorem keeps_delKeys (keys : List Bytes) :
    Keeps Disciplined (fun _ => True) (delKeys keys) := by
  induction keys with
  | nil => exact keeps_pure _
  | cons key rest ih =>
    refine keeps_bind (keeps_leaves fun _ => leaves_getKeyDescriptor key) fun keyInfo => ?_
    split
    · exact ih
    have hcontents : Keeps Disciplined (fun _ => True) (removeContents key keyInfo) := by
      unfold removeContents
      split
      · refine keeps_bind (keeps_leaseRelease key) fun st => ?_
        split
        · exact keeps_throw trivial
        · exact keeps_pure _
      · rename_i hl
        exact keeps_leaves fun cache => leaves_removeContents (tolerates_cache cache _ _) hl
    refine keeps_bind hcontents fun _ => ?_
    refine keeps_bind (keeps_aside fun _ _ hs => hs) fun _ => ?_
    exact keeps_bind ih fun _ => keeps_pure _

end

/-- Without expirations in the store, nothing is written under their keys. -/
theorem yields_delAll_none {keys : List StoreKey} {t : Traced StagingArea EventWrite}
    (ht : Disciplined t) (hk : ∀ deadline key, .expirationEvent deadline key ∉ keys) :
    Yields (delAll keys) t (fun _ t' => Disciplined t' ∧
      t'.area.expirationCache = t.area.expirationCache) fun _ => True := by
  induction keys generalizing t with
  | nil => exact ⟨ht, rfl⟩
  | cons k rest ih =>
    have hplain : del k = plain (StagingArea.del k) := by
      unfold del
      cases k
      case expirationEvent deadline key =>
        exact absurd List.mem_cons_self (hk deadline key)
      all_goals rfl
    unfold delAll
    rw [hplain, yields_bind, yields_plain, yields_del]
    have hrest : Disciplined { area := t.area.delIn k, writes := t.writes } := ht.aside rfl rfl
    exact ih hrest fun d key hm => hk d key (List.mem_cons_of_mem k hm)

theorem yields_flushall {t : Traced StagingArea EventWrite} (ht : Disciplined t)
    (hcache : t.area.expirationCache = [])
    (hnone : ∀ deadline key, .expirationEvent deadline key ∉ t.area.store) :
    Yields flushall t (fun _ t' => Disciplined t') fun _ => True := by
  unfold flushall
  rw [yields_bind, yields_plain, yields_get, yields_bind]
  refine (yields_delAll_none ht fun d key hm => ?_).mono fun _ t1 h1 => ?_
  · exact hnone d key (AList.mem_keys.mpr (List.mem_filter.mp hm).1)
  · rw [yields_bind, yields_plain, yields_modify, yields_pure]
    exact h1.1.aside (h1.2.trans hcache).symm rfl

theorem yields_dispatchCommand (doubles : Doubles) {request : RedisRequest}
    {t : Traced StagingArea EventWrite} (ht : Disciplined t)
    (hflush : getCommand request = .FLUSHALL → request.tail = [] →
      t.area.expirationCache = [] ∧
        ∀ deadline key, .expirationEvent deadline key ∉ t.area.store) :
    Yields (dispatchCommand doubles request) t (fun _ t' => Disciplined t') fun _ => True := by
  unfold dispatchCommand
  split
  · rename_i hc hargs
    obtain ⟨hcache, hnone⟩ := hflush hc hargs
    rw [yields_bind]
    exact (yields_flushall ht hcache hnone).mono fun _ t' h => h
  · exact keeps_bind (keeps_delKeys _) (fun _ => keeps_pure _) t ht
  · rename_i key value durationStr timestampStr _ _
    have hacquire : Keeps Disciplined (fun _ => True)
        (dispatchLeaseAcquire key value durationStr timestampStr) := by
      unfold dispatchLeaseAcquire
      split
      · exact keeps_pure _
      split
      · exact keeps_pure _
      refine keeps_bind (keeps_assertThat _ _) fun _ => ?_
      refine keeps_bind (keeps_lease_acquire _ _ _ _) fun result => ?_
      split <;> exact keeps_pure _
    exact hacquire t ht
  · rename_i key timestampStr _ _
    have hget : Keeps Disciplined (fun _ => True) (dispatchLeaseGet key timestampStr) := by
      refine keeps_bind (keeps_assertThat _ _) fun _ => ?_
      refine keeps_bind (keeps_lease_get _ _) fun result => ?_
      dsimp only
      split
      · exact keeps_pure _
      · exact keeps_bind (keeps_assertThat _ _) fun _ => keeps_pure _
    exact hget t ht
  · rename_i key timestampStr _ _
    have hrelease : Keeps Disciplined (fun _ => True) (dispatchLeaseRelease key timestampStr) := by
      refine keeps_bind (keeps_assertThat _ _) fun _ => ?_
      refine keeps_bind (keeps_lease_release _ _) fun st => ?_
      split <;> exact keeps_pure _
    exact hrelease t ht
  · rename_i hflushall hdel hacquire hget hrelease
    refine keeps_aside (fun cache => ?_) t ht
    by_cases hl : mayEndLeases request = false
    · refine (leaves_dispatchCommand doubles hl (fun key _ type _ => ?_) ?_).weaken
        fun _ _ => trivial
      · exact fun _ _ _ => tolerates_cache cache key type
      · exact fun _ _ _ hs => hs
    -- one of the commands above, with the wrong number of arguments
    unfold mayEndLeases at hl
    unfold RedisDispatcher.dispatchCommand
    split at hl <;> rename_i hc
    · rcases hargs : request.tail with _ | ⟨arg, args⟩ <;> rw [hc] <;> dsimp only
      · exact (hflushall hc hargs).elim
      · exact keeps_pure _
    · rcases hargs : request.tail with _ | ⟨key, keys⟩ <;> rw [hc] <;> dsimp only
      · exact keeps_pure _
      · exact (hdel _ _ hc hargs).elim
    · rcases hargs : request.tail with _ | ⟨key, _ | ⟨value, _ | ⟨duration, _ | ⟨stamp, _ | _⟩⟩⟩⟩ <;>
        rw [hc] <;> dsimp only <;> try exact keeps_pure _
      exact (hacquire _ _ _ _ hc hargs).elim
    · rcases hargs : request.tail with _ | ⟨key, _ | ⟨stamp, _ | _⟩⟩ <;>
        rw [hc] <;> dsimp only <;> try exact keeps_pure _
      exact (hget _ _ hc hargs).elim
    · rcases hargs : request.tail with _ | ⟨key, _ | ⟨stamp, _ | _⟩⟩ <;>
        rw [hc] <;> dsimp only <;> try exact keeps_pure _
      exact (hrelease _ _ hc hargs).elim
    · exact absurd rfl hl

end EventWrites

/-! ## Runs -/

section

variable (doubles : Doubles) (dispatchRead : StagingArea → RedisRequest → Except Fault Bytes)

/-- When the requests are processed on a staging area one after the other, this command is
executed on that staging area. -/
inductive Executes : List RedisRequest → StagingArea → RedisRequest → StagingArea → Prop
  | command {request : RedisRequest} {rest : List RedisRequest} {s : StagingArea} :
    getCommandType request = .WRITE → getCommand request ≠ .TX_READWRITE →
    Executes (request :: rest) s request s
  | packed {outer command : RedisRequest} {rest : List RedisRequest} {tx : Transaction}
    {s s' : StagingArea} :
    getCommand outer = .TX_READWRITE → Transaction.deserialize outer = .ok (some tx) →
    Executes tx.requests s command s' → Executes (outer :: rest) s command s'
  | later {request command : RedisRequest} {rest : List RedisRequest} {reply : Bytes}
    {s s1 s' : StagingArea} :
    dispatchOne doubles dispatchRead request s = .ok (reply, s1) → Executes rest s1 command s' →
    Executes (request :: rest) s command s'

/-- A FLUSHALL that is executed finds no expiration of a lease. -/
def SparesEvents (request : RedisRequest) (s : StagingArea) : Prop :=
  getCommand request = .FLUSHALL → request.tail = [] →
    ∀ deadline key, .expirationEvent deadline key ∉ s.store

variable {doubles dispatchRead}

theorem Executes.of_head {request command : RedisRequest} {rest : List RedisRequest}
    {s s' : StagingArea} (h : Executes doubles dispatchRead [request] s command s') :
    Executes doubles dispatchRead (request :: rest) s command s' := by
  cases h with
  | command ht hc => exact .command ht hc
  | packed hc hd hp => exact .packed hc hd hp
  | later _ hl => cases hl

/-- What holds between two requests. -/
structure Orderly (t : Traced StagingArea EventWrite) : Prop where
  restorable : ∃ applied, Restorable applied t.area
  disciplined : Disciplined t

theorem Orderly.cache_nil {t : Traced StagingArea EventWrite} (h : Orderly t)
    (hnone : ∀ deadline key, .expirationEvent deadline key ∉ t.area.store) :
    t.area.expirationCache = [] := by
  obtain ⟨applied, hr⟩ := h.restorable
  refine List.eq_nil_iff_forall_not_mem.mpr fun e he => ?_
  exact hnone e.1 e.2 ((hr.events e.1 e.2).mpr he)

theorem yields_command_orderly {request : RedisRequest} {t : Traced StagingArea EventWrite}
    (hs : Orderly t) (hspare : SparesEvents request t.area) :
    Yields (EventWrites.dispatchCommand doubles request) t (fun _ t' => Orderly t')
      fun _ => True := by
  obtain ⟨applied, hr⟩ := hs.restorable
  have hkeeps := (EventWrites.tells_dispatchCommand doubles request).keeps
    (keeps_dispatchCommand_restorable doubles request) t hr
  have hline := EventWrites.yields_dispatchCommand doubles hs.disciplined fun hc hargs =>
    ⟨hs.cache_nil (hspare hc hargs), hspare hc hargs⟩
  exact (hkeeps.and hline).mono fun _ t' h => ⟨⟨applied, h.1⟩, h.2⟩

theorem yields_requests_orderly {f : RedisRequest → TracedM Bytes} {requests : List RedisRequest}
    (htells : ∀ request ∈ requests, Tells (f request) (dispatchOne doubles dispatchRead request))
    (hf : ∀ request ∈ requests, ∀ t, Orderly t →
      (∀ command s', Executes doubles dispatchRead [request] t.area command s' →
        SparesEvents command s') → Yields (f request) t (fun _ t' => Orderly t') fun _ => True)
    {t : Traced StagingArea EventWrite} (hs : Orderly t)
    (hspare : ∀ command s', Executes doubles dispatchRead requests t.area command s' →
      SparesEvents command s') :
    Yields (requests.mapM f) t (fun _ t' => Orderly t') fun _ => True := by
  induction requests generalizing t with
  | nil => exact hs
  | cons request rest ih =>
    rw [List.mapM_cons, yields_bind]
    have hone := hf request List.mem_cons_self t hs fun command s' he => hspare command s' he.of_head
    refine hone.and_ran.mono fun reply t1 h1 => ?_
    rw [yields_bind]
    have hran := (htells request List.mem_cons_self).of_ok h1.2
    refine (ih (fun r hr => htells r (List.mem_cons_of_mem _ hr))
      (fun r hr => hf r (List.mem_cons_of_mem _ hr)) h1.1
      fun command s' he => hspare command s' (.later hran he)).mono fun _ t2 h2 => ?_
    exact h2

theorem keeps_read_orderly (request : RedisRequest) : Keeps Orderly (fun _ => True) (do
    plain (throwing (dispatchRead (← plain (MonadState.get : StagingM StagingArea)) request)) :
    TracedM Bytes) := by
  intro t ht
  rw [yields_bind, yields_plain, yields_get, yields_plain]
  exact yields_lift.mpr ⟨fun _ _ => ht, fun _ _ => trivial⟩

theorem yields_dispatchReadWrite_orderly {fuel : Nat} {request : RedisRequest}
    (hb : bytesIn request ≤ fuel) {t : Traced StagingArea EventWrite} (hs : Orderly t)
    (hspare : ∀ command s', Executes doubles dispatchRead [request] t.area command s' →
      SparesEvents command s') :
    Yields (EventWrites.dispatchReadWrite doubles dispatchRead fuel request) t
      (fun _ t' => Orderly t') fun _ => True := by
  induction fuel generalizing request t with
  | zero =>
    unfold EventWrites.dispatchReadWrite
    split
    · exact keeps_read_orderly request t hs
    rename_i ht
    split
    · rename_i hc
      exact yields_command_orderly hs (hspare _ _ (.command (not_not.mp ht) hc))
    · trivial
  | succ fuel ih =>
    unfold EventWrites.dispatchReadWrite
    split
    · exact keeps_read_orderly request t hs
    rename_i ht
    split
    · rename_i hc
      exact yields_command_orderly hs (hspare _ _ (.command (not_not.mp ht) hc))
    rename_i hc
    rw [yields_bind, yields_plain]
    refine yields_lift.mpr ⟨fun o ho => ?_, fun _ _ => trivial⟩
    cases o with
    | none => trivial
    | some tx =>
      dsimp only
      rw [yields_bind, yields_plain]
      refine yields_lift.mpr ⟨fun _ _ => ?_, fun _ _ => trivial⟩
      rw [yields_bind]
      have hbytes : ∀ inner ∈ tx.requests, bytesIn inner ≤ fuel := by
        intro inner hi
        have := bytesIn_deserialize ho hi
        omega
      refine (yields_requests_orderly (fun inner hi => ?_) (fun inner hi t1 hs1 hspare1 => ?_) hs
        fun command s' he => hspare command s' (.packed (not_not.mp hc) ho he)).mono fun _ t' h => h
      · have htells := EventWrites.tells_dispatchReadWrite doubles dispatchRead fuel inner
        rw [dispatchReadWrite_fuel doubles dispatchRead (hbytes inner hi) (Nat.le_refl _)] at htells
        exact htells
      · exact ih (hbytes inner hi) hs1 hspare1

theorem Restorable.commit {m m' : Machine} {s : StagingArea} {index : Int}
    {applied : Option Bytes} (h : Restorable applied s)
    (hc : commitTransaction m s index = .ok m') : ∃ applied, Restorable applied (stage m') := by
  unfold commitTransaction at hc
  split at hc
  · cases hc
  split at hc
  · split at hc
    · cases hc
    · cases hc
      refine ⟨_, fun t key => ?_, h.line, ?_, AList.lookup_insert _⟩
      · exact (mem_congr (AList.lookup_insert_ne (by simp))).trans (h.events t key)
      · obtain ⟨value, hv, hlen⟩ := h.clock
        exact ⟨value, (AList.lookup_insert_ne (by simp)).trans hv, hlen⟩
  · cases hc
    exact ⟨applied, h.events, h.line, h.clock, h.applied⟩

theorem commitTransaction_cache {m m' : Machine} {s : StagingArea} {index : Int}
    (hc : commitTransaction m s index = .ok m') : m'.expirationCache = s.expirationCache := by
  unfold commitTransaction at hc
  split at hc
  · cases hc
  split at hc
  · split at hc
    · cases hc
    · cases hc
      rfl
  · cases hc
    rfl

theorem dispatchTransaction_orderly {m m' : Machine} {tx : Transaction} {index : Int}
    {reply : Bytes} {written writes : List EventWrite}
    (hs : Orderly { area := stage m, writes := written })
    (hspare : ∀ command s', Executes doubles dispatchRead tx.requests (stage m) command s' →
      SparesEvents command s')
    (hd : EventWrites.dispatchTransaction doubles dispatchRead m written tx index =
      .ok ((reply, writes), m')) :
    Orderly { area := stage m', writes } := by
  have hall : Yields (EventWrites.dispatchAll doubles dispatchRead tx)
      { area := stage m, writes := written } (fun _ t' => Orderly t') fun _ => True := by
    unfold EventWrites.dispatchAll
    rw [yields_bind, yields_plain]
    refine yields_lift.mpr ⟨fun _ _ => ?_, fun _ _ => trivial⟩
    rw [yields_bind]
    refine (yields_requests_orderly (fun request _ => ?_) (fun request _ t1 hs1 hspare1 => ?_) hs
      hspare).mono fun _ t' h => h
    · exact EventWrites.tells_dispatchReadWrite doubles dispatchRead _ request
    · exact yields_dispatchReadWrite_orderly (Nat.le_refl _) hs1 hspare1
  unfold EventWrites.dispatchTransaction at hd
  obtain ⟨⟨resp, t⟩, hrun, hd⟩ := ok_of_bind hd
  have ht : Orderly t := hall.of_ok hrun
  dsimp only at hd
  split at hd
  · obtain ⟨m1, hc, hd⟩ := ok_of_bind hd
    cases hd
    obtain ⟨applied, hr⟩ := ht.restorable
    exact ⟨hr.commit hc, ht.disciplined.aside (commitTransaction_cache hc) rfl⟩
  · cases hd
    exact hs

theorem freshMachine_orderly : Orderly { area := stage freshMachine, writes := [] } := by
  refine ⟨⟨_, fun t key => ?_, ⟨List.Pairwise.nil, List.nodup_nil⟩, ⟨_, rfl, by decide +kernel⟩,
    rfl⟩, fun _ _ i hi => absurd hi (Nat.not_lt_zero i), fun _ _ => ?_,
    ⟨List.Pairwise.nil, List.nodup_nil⟩⟩
  · constructor
    · intro hm
      rcases (AList.mem_insert _).mp hm with he | hm
      · cases he
      rcases (AList.mem_insert _).mp hm with he | hm
      · cases he
      · exact absurd hm (AList.notMem_empty _)
    · intro hm
      cases hm
  · constructor
    · intro hm
      cases hm
    · intro hodd
      cases hodd

theorem applyBatches_orderly {mode : Mode} {batches : List Transaction} {m m' : Machine}
    {replies : List Bytes} {written writes : List EventWrite}
    (hs : Orderly { area := stage m, writes := written })
    (hspare : ∀ before tx after, batches = before ++ tx :: after → ∀ replies1 m1,
      applyBatches doubles dispatchRead mode m before = .ok (replies1, m1) →
      ∀ command s, Executes doubles dispatchRead tx.requests (stage m1) command s →
        SparesEvents command s)
    (hrun : EventWrites.applyBatches doubles dispatchRead mode m written batches =
      .ok ((replies, writes), m')) :
    Orderly { area := stage m', writes } := by
  induction batches generalizing m written replies with
  | nil =>
    cases hrun
    exact hs
  | cons tx rest ih =>
    obtain ⟨⟨⟨reply, writes1⟩, m1⟩, hd, hrun⟩ := ok_of_bind hrun
    obtain ⟨⟨⟨replies1, writes2⟩, last⟩, hrest, hrun⟩ := ok_of_bind hrun
    cases hrun
    have hplain := EventWrites.dispatchTransaction_eq doubles dispatchRead m written tx
      (mode.index m)
    rw [hd] at hplain
    refine ih (dispatchTransaction_orderly hs (hspare [] tx rest rfl [] m rfl) hd) ?_ hrest
    intro before tx' after hsplit replies3 m3 hbefore
    refine hspare (tx :: before) tx' after (by rw [hsplit]; rfl) (reply :: replies3) m3 ?_
    unfold applyBatches
    rw [← hplain]
    dsimp only [Except.map, bind, Except.bind]
    rw [hbefore]
    rfl

/-- Whatever batches are committed, the writes under the key of an expiration are a put and
a single delete in turn, and the key is in the store after a put: unless a FLUSHALL finds an
expiration. -/
theorem expirations_are_single_deleted (mode : Mode) {batches : List Transaction}
    {replies : List Bytes} {m : Machine}
    (hrun : applyBatches doubles dispatchRead mode freshMachine batches = .ok (replies, m))
    (hflush : ∀ before tx after, batches = before ++ tx :: after → ∀ replies1 m1,
      applyBatches doubles dispatchRead mode freshMachine before = .ok (replies1, m1) →
      ∀ command s, Executes doubles dispatchRead tx.requests (stage m1) command s →
        SparesEvents command s) :
    ∃ writes, EventWrites.applyBatches doubles dispatchRead mode freshMachine [] batches =
        .ok ((replies, writes), m) ∧
      ∀ deadline key, Alternates (writesTo deadline key writes) ∧
        (.expirationEvent deadline key ∈ m.store ↔
          (writesTo deadline key writes).getLast? = some .put) := by
  have heq := EventWrites.applyBatches_eq doubles dispatchRead mode freshMachine [] batches
  rw [hrun] at heq
  rcases htraced : EventWrites.applyBatches doubles dispatchRead mode freshMachine [] batches with
    e | ⟨⟨replies1, writes⟩, m1⟩
  · rw [htraced] at heq
    cases heq
  rw [htraced] at heq
  cases heq
  have hlast := applyBatches_orderly freshMachine_orderly hflush htraced
  refine ⟨writes, rfl, fun deadline key => ?_⟩
  have halt := hlast.disciplined.alternates deadline key
  obtain ⟨applied, hr⟩ := hlast.restorable
  refine ⟨halt, ?_⟩
  rw [halt.getLast?, ← hlast.disciplined.cached deadline key]
  exact hr.events deadline key

theorem Executes.of_single {request command : RedisRequest} {s s' : StagingArea}
    (hd : Transaction.deserialize request = .ok none)
    (h : Executes doubles dispatchRead [request] s command s') : command = request ∧ s' = s := by
  cases h with
  | command => exact ⟨rfl, rfl⟩
  | packed _ hd' => exact absurd (hd.symm.trans hd') (by simp)
  | later _ hl => cases hl

end

/-! ## With and without FLUSHALL -/

/-- Alice asks for a lease until 1010. -/
def acquisition : Transaction :=
  ⟨[[ascii "TIMESTAMPED_LEASE_ACQUIRE", ascii "k", ascii "alice", ascii "1000",
    unsignedIntToBinaryString 10]], true, true, by decide +kernel, by decide +kernel⟩

def release : Transaction :=
  ⟨[[ascii "TIMESTAMPED_LEASE_RELEASE", ascii "k", unsignedIntToBinaryString 20]], true, true,
    by decide +kernel, by decide +kernel⟩

def flush : Transaction := ⟨[[ascii "FLUSHALL"]], true, true, by decide +kernel, by decide +kernel⟩

theorem an_acquisition_and_a_release_alternate : ∃ replies m writes,
    EventWrites.applyBatches wholeDoubles readsNothing .raft freshMachine []
      [acquisition, release, flush] = .ok ((replies, writes), m) ∧
    writesTo 1010 (ascii "k") writes = [.put, .singleDelete] ∧
    Alternates (writesTo 1010 (ascii "k") writes) := by
  obtain ⟨hrun, hbefore, hothers⟩ :
      (EventWrites.applyBatches wholeDoubles readsNothing .raft freshMachine []
        [acquisition, release, flush]).map (fun r => writesTo 1010 (ascii "k") r.1.2) =
        .ok [.put, .singleDelete] ∧
      (applyBatches wholeDoubles readsNothing .raft freshMachine
        [acquisition, release]).map (fun r => r.2.store.keys.filterMap eventOf) = .ok [] ∧
      ∀ request ∈ acquisition.requests ++ release.requests, getCommand request ≠ .FLUSHALL := by
    decide +kernel
  obtain ⟨⟨⟨replies, writes⟩, m⟩, hw, hkey⟩ := exists_of_map_ok hrun
  have hplain := EventWrites.applyBatches_eq wholeDoubles readsNothing .raft freshMachine []
    [acquisition, release, flush]
  rw [hw] at hplain
  obtain ⟨writes', hw', hall⟩ := expirations_are_single_deleted .raft hplain.symm (by
    intro before tx after hsplit replies1 m1 hm1 command s he
    rcases before with _ | ⟨tx1, _ | ⟨tx2, _ | ⟨tx3, before⟩⟩⟩
    · cases hsplit
      obtain ⟨rfl, -⟩ := he.of_single rfl
      exact fun hc => absurd hc (hothers _ List.mem_cons_self)
    · cases hsplit
      obtain ⟨rfl, -⟩ := he.of_single rfl
      exact fun hc => absurd hc (hothers _ (List.mem_cons_of_mem _ List.mem_cons_self))
    · cases hsplit
      obtain ⟨-, rfl⟩ := he.of_single rfl
      rw [hm1] at hbefore
      intro _ _ deadline key hm
      have hnone := List.filterMap_eq_nil_iff.mp (Except.ok.inj hbefore) _ (AList.mem_keys.mp hm)
      cases hnone
    · simp at hsplit)
  rw [hw] at hw'
  cases hw'
  exact ⟨replies, m, writes, hw, hkey, (hall _ _).1⟩

/-- FLUSHALL deletes the expiration of the lease that alice has. -/
theorem flushall_deletes_an_expiration : ∃ replies m writes,
    applyBatches wholeDoubles readsNothing .raft freshMachine [acquisition, flush] =
      .ok (replies, m) ∧
    EventWrites.applyBatches wholeDoubles readsNothing .raft freshMachine []
      [acquisition, flush] = .ok ((replies, writes), m) ∧
    writesTo 1010 (ascii "k") writes = [.put, .del] ∧
    ¬ Alternates (writesTo 1010 (ascii "k") writes) := by
  have hrun : (EventWrites.applyBatches wholeDoubles readsNothing .raft freshMachine []
      [acquisition, flush]).map (fun r => writesTo 1010 (ascii "k") r.1.2) =
      .ok [.put, .del] := by decide +kernel
  obtain ⟨⟨⟨replies, writes⟩, m⟩, hw, hkey⟩ := exists_of_map_ok hrun
  have hplain := EventWrites.applyBatches_eq wholeDoubles readsNothing .raft freshMachine []
    [acquisition, flush]
  rw [hw] at hplain
  refine ⟨replies, m, writes, hplain.symm, hw, hkey, fun h => ?_⟩
  rw [hkey] at h
  exact absurd (h 1 (by decide)) (by decide)

end quarkdb
