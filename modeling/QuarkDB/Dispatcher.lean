-- How requests and transactions reach the state machine. A leader executes the
-- transaction it holds in memory; followers, and a leader that restarts, execute
-- the request that the journal holds. With the same reads, both do the same.
import QuarkDB.StateMachine

namespace quarkdb

/-! ## Replies -/

namespace Formatter

def crlf : Bytes := [13, 10]

def err (message : Bytes) : Bytes := ascii "-ERR " ++ message ++ crlf

def errArgs (cmd : Bytes) : Bytes :=
  ascii "-ERR wrong number of arguments for '" ++ cmd ++ ascii "' command" ++ crlf

def string (str : Bytes) : Bytes := ascii "$" ++ decimal str.length ++ crlf ++ str ++ crlf

def status (str : Bytes) : Bytes := ascii "+" ++ str ++ crlf

def ok : Bytes := ascii "+OK" ++ crlf

def null : Bytes := ascii "$-1" ++ crlf

def integer (number : Int) : Bytes := ascii ":" ++ decimal number ++ crlf

/-- `err(status.ToString())`, unless the status is OK. -/
def fromStatus : Status → Bytes
  | .OK => ok
  | .NotFound => err (ascii "NotFound: ")
  | .InvalidArgument message => err (ascii "Invalid argument: " ++ ascii message)

def statusVector (vec : List Bytes) : Bytes :=
  ascii "*" ++ decimal vec.length ++ crlf ++ vec.flatMap status

end Formatter

/-- `ArrayResponseBuilder`: the replies of a phantom transaction follow each other, those
of a real one are an array. -/
def buildResponse (phantom : Bool) (replies : List Bytes) : Bytes :=
  (if phantom then [] else ascii "*" ++ decimal replies.length ++ Formatter.crlf) ++
    replies.flatten

namespace RedisDispatcher

open StateMachine Formatter

/-- A status that is not OK is the reply; otherwise the reply comes from the value. -/
def replyWith {α : Type} (result : Status × α) (reply : α → Bytes) : Bytes :=
  if result.1.ok then reply result.2 else fromStatus result.1

/-- A status that is not found is a null reply. -/
def replyOrNull {α : Type} (result : Status × α) (reply : α → Bytes) : Bytes :=
  if result.1.isNotFound then null else replyWith result reply

def flag (b : Bool) : Bytes := integer (if b then 1 else 0)

def dispatchLHSET (key field hint value : Bytes) : StagingM Bytes := do
  return replyWith (← lhset key field hint value) flag

def dispatchHDEL (key : Bytes) (fields : List Bytes) : StagingM Bytes := do
  return replyWith (← hdel key fields) integer

def dispatchLHDEL (key : Bytes) (fields : List Bytes) : StagingM Bytes := do
  return replyWith (← lhdel key fields) integer

/-- The loop of HINCRBYMULTI, which ignores what goes wrong. -/
def hincrbyLoop : List Bytes → StagingM Int
  | key :: field :: incrby :: rest => do
    let (_, tmpret) ← hincrby key field incrby
    let ret ← hincrbyLoop rest
    return sum64 tmpret ret
  | _ => return 0

def convertHashFieldToLhash (key field destKey destField destHint : Bytes) : StagingM Bytes := do
  let (st, _) ← lhget destKey destField destHint
  if st.ok then return err (ascii "Destination field already exists!")
  else
    let (st, value) ← hget key field
    if !st.ok then return fromStatus st
    else
      let (st, fieldCreated) ← lhset destKey destField destHint value
      if !st.ok then return fromStatus st
      else if !fieldCreated then throw (.thrown "should never happen")
      else
        let (st, removed) ← hdel key [field]
        if !st.ok then throw (.thrown "should never happen")
        assertThat (removed = 1) "removed == 1"
        return ok

def dispatchLeaseAcquire (key value durationStr timestampStr : Bytes) : StagingM Bytes :=
  match parseInt64 durationStr with
  | none => return err (ascii "value is not an integer or out of range")
  | some duration =>
    if duration < 1 then return err (ascii "value is not an integer or out of range")
    else do
      assertThat (timestampStr.length = 8) "request[4].size() == 8u"
      let timestamp := binaryStringToUnsignedInt timestampStr
      match ← lease_acquire key value timestamp (UInt64.ofNat duration.toNat) with
      | (.kKeyTypeMismatch, _, _) =>
        return err (ascii
          "Invalid Argument: WRONGTYPE Operation against a key holding the wrong kind of value")
      | (.kAcquired, _, _) => return status (ascii "ACQUIRED")
      | (.kRenewed, _, _) => return status (ascii "RENEWED")
      | (.kFailedDueToOtherOwner, holder, deadline) =>
        return err (ascii "lease held by '" ++ holder ++ ascii "', time remaining " ++
          decimal (deadline - timestamp).toNat ++ ascii " ms")

def dispatchLeaseGet (key timestampStr : Bytes) : StagingM Bytes := do
  assertThat (timestampStr.length = 8) "request[2].size() == 8u"
  let timestamp := binaryStringToUnsignedInt timestampStr
  let (st, holder, deadline) ← lease_get key timestamp
  if st.isNotFound then return null
  else
    assertThat st.ok "st.ok()"
    return statusVector [ascii "HOLDER: " ++ holder,
      ascii "REMAINING: " ++ decimal (deadline - timestamp).toNat ++ ascii " ms"]

def dispatchLeaseRelease (key timestampStr : Bytes) : StagingM Bytes := do
  assertThat (timestampStr.length = 8) "request[2].size() == 8u"
  let st ← lease_release key (binaryStringToUnsignedInt timestampStr)
  if st.isNotFound then return null else return fromStatus st

/-- `dispatchWrite` for the commands that are no transaction. -/
def dispatchCommand (doubles : Doubles) (request : RedisRequest) : StagingM Bytes :=
  let name := request.headD []
  match getCommand request, request.tail with
  | .FLUSHALL, [] => do return fromStatus (← flushall)
  | .FLUSHALL, _ => return errArgs name
  | .SET, [key, value] => do return fromStatus (← set key value)
  | .SET, _ => return errArgs name
  | .DEL, key :: keys => do return integer (← delKeys (key :: keys))
  | .DEL, _ => return errArgs name
  | .HSET, [key, field, value] => do return replyWith (← hset key field value) flag
  | .HSET, _ => return errArgs name
  | .HSETNX, [key, field, value] => do return replyWith (← hsetnx key field value) flag
  | .HSETNX, _ => return errArgs name
  | .HMSET, key :: args =>
    if args.length < 2 ∨ args.length % 2 ≠ 0 then return errArgs name
    else do return fromStatus (← hmset key args)
  | .HMSET, _ => return errArgs name
  | .HINCRBY, [key, field, incrby] => do return replyWith (← hincrby key field incrby) integer
  | .HINCRBY, _ => return errArgs name
  | .HINCRBYMULTI, args =>
    if args.length < 3 ∨ args.length % 3 ≠ 0 then return errArgs name
    else do return integer (← hincrbyLoop args)
  | .HINCRBYFLOAT, [key, field, incrby] => do
    return replyWith (← hincrbyfloat doubles key field incrby) fun d => string (doubles.toBytes d)
  | .HINCRBYFLOAT, _ => return errArgs name
  | .HDEL, key :: field :: fields => dispatchHDEL key (field :: fields)
  | .HDEL, _ => return errArgs name
  | .HCLONE, [source, target] => do return fromStatus (← hclone source target)
  | .HCLONE, _ => return errArgs name
  | .SADD, key :: element :: elements => do
    return replyWith (← sadd key (element :: elements)) integer
  | .SADD, _ => return errArgs name
  | .SREM, key :: element :: elements => do
    return replyWith (← srem key (element :: elements)) integer
  | .SREM, _ => return errArgs name
  | .SMOVE, [source, destination, element] => do
    return replyWith (← smove source destination element) integer
  | .SMOVE, _ => return errArgs name
  | .DEQUE_PUSH_FRONT, key :: item :: items => do
    return replyWith (← dequePush .kLeft key (item :: items)) integer
  | .DEQUE_PUSH_FRONT, _ => return errArgs name
  | .DEQUE_PUSH_BACK, key :: item :: items => do
    return replyWith (← dequePush .kRight key (item :: items)) integer
  | .DEQUE_PUSH_BACK, _ => return errArgs name
  | .DEQUE_POP_FRONT, [key] => do return replyOrNull (← dequePop .kLeft key) string
  | .DEQUE_POP_FRONT, _ => return errArgs name
  | .DEQUE_POP_BACK, [key] => do return replyOrNull (← dequePop .kRight key) string
  | .DEQUE_POP_BACK, _ => return errArgs name
  | .DEQUE_TRIM_FRONT, [key, maxToKeep] => do
    return replyWith (← dequeTrimFront key maxToKeep) integer
  | .DEQUE_TRIM_FRONT, _ => return errArgs name
  | .DEQUE_CLEAR, [key] => do return replyWith (← dequeTrimFront key (ascii "0")) integer
  | .DEQUE_CLEAR, _ => return errArgs name
  | .CONFIG_SET, [key, value] => do return fromStatus (← configSet key value)
  | .CONFIG_SET, _ => return errArgs name
  | .LHSET, [key, field, hint, value] => dispatchLHSET key field hint value
  | .LHSET, _ => return errArgs name
  | .LHDEL, key :: field :: fields => dispatchLHDEL key (field :: fields)
  | .LHDEL, _ => return errArgs name
  | .LHLOCDEL, [key, field, hint] => do return replyWith (← lhlocdel key field hint) integer
  | .LHLOCDEL, _ => return errArgs name
  | .LHMSET, key :: args =>
    if args.length < 3 ∨ args.length % 3 ≠ 0 then return errArgs name
    else do return fromStatus (← lhmset key args)
  | .LHMSET, _ => return errArgs name
  | .LHSET_AND_DEL_FALLBACK, [key, field, hint, value, fallback] => do
    let resp ← dispatchLHSET key field hint value
    let _ ← dispatchHDEL fallback [field]
    return resp
  | .LHSET_AND_DEL_FALLBACK, _ => return errArgs name
  | .LHDEL_WITH_FALLBACK, [key, field, fallback] => do
    let resp ← dispatchLHDEL key [field]
    if resp ≠ integer 1 then dispatchHDEL fallback [field] else return resp
  | .LHDEL_WITH_FALLBACK, _ => return errArgs name
  | .CONVERT_HASH_FIELD_TO_LHASH, [key, field, destKey, destField, destHint] =>
    convertHashFieldToLhash key field destKey destField destHint
  | .CONVERT_HASH_FIELD_TO_LHASH, _ => return errArgs name
  | .TIMESTAMPED_LEASE_ACQUIRE, [key, value, duration, timestamp] =>
    dispatchLeaseAcquire key value duration timestamp
  | .TIMESTAMPED_LEASE_ACQUIRE, _ => return errArgs (ascii "lease_acquire")
  | .TIMESTAMPED_LEASE_GET, [key, timestamp] => dispatchLeaseGet key timestamp
  | .TIMESTAMPED_LEASE_GET, _ => return errArgs (ascii "lease_get")
  | .TIMESTAMPED_LEASE_RELEASE, [key, timestamp] => dispatchLeaseRelease key timestamp
  | .TIMESTAMPED_LEASE_RELEASE, _ => return errArgs (ascii "lease_release")
  | .ARTIFICIALLY_SLOW_WRITE_NEVER_USE_THIS, [sleep] => do
    return fromStatus (← artificiallySlowWriteNeverUseThis sleep)
  | .ARTIFICIALLY_SLOW_WRITE_NEVER_USE_THIS, _ => return errArgs name
  | .VHSET, [key, field, value] => do
    return replyWith (← vhset key field value) fun version => integer (Endian.signed version.toNat)
  | .VHSET, _ => return errArgs name
  | .VHDEL, key :: field :: fields => do
    return replyWith (← vhdel key (field :: fields)) fun version =>
      integer (Endian.signed version.toNat)
  | .VHDEL, _ => return errArgs name
  | _, _ => throw (.thrown "internal dispatching error in RedisDispatcher for ")

/-! ## Transactions -/

/-- What the state machine keeps between requests. -/
structure Machine where
  store : Store
  expirationCache : List (UInt64 × Bytes)
  lastApplied : Int

section

-- Doubles, and the reads: what a read answers from a staging area.
variable (doubles : Doubles) (dispatchRead : StagingArea → RedisRequest → Except Fault Bytes)

/-- How many bytes a request has. -/
def bytesIn (request : RedisRequest) : Nat := (request.map List.length).sum

/-- `dispatchReadWrite`, with `dispatchWrite` unfolded. A packed transaction is unpacked
and processed; it holds fewer bytes than the request it came in, which is the fuel. -/
def dispatchReadWrite : Nat → RedisRequest → StagingM Bytes
  | fuel, request =>
    if getCommandType request ≠ .WRITE then do
      throwing (dispatchRead (← MonadState.get) request)
    else if getCommand request ≠ .TX_READWRITE then dispatchCommand doubles request
    else
      match fuel with
      | 0 => throw (.thrown "out of fuel")
      | fuel + 1 => do
        match ← throwing (Transaction.deserialize request) with
        | none => throw (.assertion "transaction.deserialize(request)")
        | some transaction =>
          assertThat (transaction.requests.length ≠ 0) "itemsRemaining >= 1"
          let replies ← transaction.requests.mapM (dispatchReadWrite fuel)
          return buildResponse transaction.phantom replies

/-- A request of a transaction, with as much fuel as it needs. -/
def dispatchOne (request : RedisRequest) : StagingM Bytes :=
  dispatchReadWrite doubles dispatchRead (bytesIn request) request

/-- `dispatch` of a transaction on a staging area. -/
def dispatchAll (transaction : Transaction) : StagingM Bytes := do
  assertThat (transaction.requests.length ≠ 0) "itemsRemaining >= 1"
  let replies ← transaction.requests.mapM (dispatchOne doubles dispatchRead)
  return buildResponse transaction.phantom replies

/-- A new staging area on the store. -/
def stage (m : Machine) : StagingArea := { store := m.store, expirationCache := m.expirationCache }

/-- `commitTransaction`. -/
def commitTransaction (m : Machine) (s : StagingArea) (index : Int) : Except Fault Machine :=
  if index ≤ 0 ∧ 0 < m.lastApplied then
    .error (.thrown "provided invalid index for version-tracked database: ")
  else if 0 < index then
    if index ≠ m.lastApplied + 1 then
      .error (.thrown "attempted to perform illegal lastApplied update: ")
    else
      .ok {
        store := s.store.insert .lastApplied (Endian.bigInt index)
        expirationCache := s.expirationCache
        lastApplied := index }
  else
    .ok { store := s.store, expirationCache := s.expirationCache, lastApplied := m.lastApplied }

/-- Run a command on a new staging area, and commit if it writes. -/
def commitAfter (m : Machine) (writes : Bool) (commit : Int) (command : StagingM Bytes) :
    Except Fault (Bytes × Machine) := do
  let (resp, s) ← command.run (stage m)
  if writes then return (resp, ← commitTransaction m s commit)
  else return (resp, m)

/-- `dispatch` of a transaction: the path of the leader. -/
def dispatchTransaction (m : Machine) (transaction : Transaction) (commit : Int) :
    Except Fault (Bytes × Machine) :=
  commitAfter m transaction.containsWrites commit (dispatchAll doubles dispatchRead transaction)

def handlePing (request : RedisRequest) : Bytes :=
  match request with
  | [_] => ascii "+PONG" ++ crlf
  | [_, message] => string message
  | _ => errArgs (request.headD [])

/-- `dispatchingError`. -/
def dispatchingError (request : RedisRequest) (commit : Int) : Except Fault Bytes :=
  if commit ≠ 0 then .error (.thrown "Could not dispatch request ")
  else .ok (err (ascii "internal dispatching error for '" ++ request.headD [] ++ ascii "'"))

/-- `dispatch` of a request: the path of the followers. -/
def dispatch (m : Machine) (request : RedisRequest) (commit : Int) :
    Except Fault (Bytes × Machine) :=
  if getCommand request = .INVALID then
    match request with
    | [] => .error .outOfBounds
    | name :: _ =>
      if (ascii "JOURNAL_").isPrefixOf name then commitAfter m true commit (pure ok)
      else if commit ≠ 0 then .error (.assertion "commit == 0")
      else .ok (err (ascii "unknown command '" ++ name ++ ascii "'"), m)
  else if 0 < commit ∧ getCommandType request ≠ .WRITE then
    .error (.thrown "attempted to dispatch non-write command ")
  else if getCommand request = .PING then .ok (handlePing request, m)
  else if getCommandType request ≠ .READ ∧ getCommandType request ≠ .WRITE then do
    return (← dispatchingError request commit, m)
  else
    commitAfter m (getCommandType request = .WRITE) commit
      (dispatchOne doubles dispatchRead request)

end

/-! ## The fuel is enough -/

theorem bytesIn_readParts {n : Nat} {src rest : Bytes} {parts : RedisRequest}
    (h : Transaction.readParts n src = .ok (parts, rest)) :
    bytesIn parts + rest.length ≤ src.length := by
  induction n generalizing src parts with
  | zero =>
    cases h
    exact Nat.le_of_eq (Nat.zero_add _)
  | succ n ih =>
    obtain ⟨⟨part, rest1⟩, hc, h⟩ := ok_of_bind h
    obtain ⟨⟨parts1, rest2⟩, hp, h⟩ := ok_of_bind h
    cases h
    have h1 := readChunk_length hc
    have h2 := ih hp
    simp only [bytesIn, List.map_cons, List.sum_cons] at h2 ⊢
    omega

theorem bytesIn_readRequest {src rest : Bytes} {req : RedisRequest}
    (h : Transaction.readRequest src = .ok (req, rest)) :
    bytesIn req + rest.length + 8 ≤ src.length := by
  obtain ⟨⟨total, rest1⟩, hb, h⟩ := ok_of_bind h
  obtain ⟨h1, h2⟩ := readBytes_ok hb
  have h3 := bytesIn_readParts h
  rw [h1, List.length_append]
  omega

theorem pushBack_requests {tx tx' : Transaction} {req : RedisRequest}
    (h : tx.pushBack req = .ok tx') : tx'.requests = tx.requests ++ [req] := by
  unfold Transaction.pushBack at h
  split at h
  · cases h
    rfl
  · cases h

theorem bytesIn_readRequests {n : Nat} {tx tx' : Transaction} {src : Bytes}
    (h : Transaction.readRequests n tx src = .ok tx') {req : RedisRequest}
    (hr : req ∈ tx'.requests) : req ∈ tx.requests ∨ bytesIn req + 8 ≤ src.length := by
  induction n generalizing tx src with
  | zero =>
    cases h
    exact .inl hr
  | succ n ih =>
    obtain ⟨⟨req1, rest⟩, hq, h⟩ := ok_of_bind h
    obtain ⟨tx1, hp, h⟩ := ok_of_bind h
    have hl := bytesIn_readRequest hq
    rcases ih h with hm | hm
    · rw [pushBack_requests hp, List.mem_append, List.mem_singleton] at hm
      rcases hm with hm | rfl
      · exact .inl hm
      · exact .inr (by omega)
    · exact .inr (by omega)

theorem bytesIn_deserializePayload {payload : Bytes} {tx : Transaction}
    (h : Transaction.deserializePayload payload = .ok (some tx)) {req : RedisRequest}
    (hr : req ∈ tx.requests) : bytesIn req < payload.length := by
  unfold Transaction.deserializePayload at h
  split at h
  · cases h
  · obtain ⟨⟨total, rest⟩, hb, h⟩ := ok_of_bind h
    obtain ⟨h1, h2⟩ := readBytes_ok hb
    dsimp only at h
    split at h
    · cases h
    · obtain ⟨tx1, ht, h⟩ := ok_of_bind h
      cases h
      rcases bytesIn_readRequests ht hr with hm | hm
      · exact absurd hm List.not_mem_nil
      · rw [h1, List.length_append]
        omega

/-- What is unpacked holds fewer bytes. -/
theorem bytesIn_deserialize {request : RedisRequest} {tx : Transaction}
    (h : Transaction.deserialize request = .ok (some tx)) {req : RedisRequest}
    (hr : req ∈ tx.requests) : bytesIn req < bytesIn request := by
  unfold Transaction.deserialize at h
  split at h
  · rename_i name payload kind
    split at h
    · cases h
    split at h
    · cases h
    obtain ⟨o, hp, h⟩ := ok_of_bind h
    cases o with
    | none => cases h
    | some tx1 =>
      have hl : ∀ r ∈ tx1.requests, bytesIn r < bytesIn [name, payload, kind] := by
        intro r hr
        have := bytesIn_deserializePayload hp hr
        simp only [bytesIn, List.map_cons, List.sum_cons] at this ⊢
        omega
      dsimp only at h
      split at h
      all_goals
        obtain ⟨u, -, h⟩ := ok_of_bind h
        cases h
        exact hl req hr
  · cases h

/-- A request that names a command has a name. -/
theorem bytesIn_pos {request : RedisRequest} (h : getCommand request ≠ .INVALID) :
    0 < bytesIn request := by
  rcases request with _ | ⟨name, parts⟩
  · exact absurd rfl h
  · rcases name with _ | ⟨c, name⟩
    · have hnone : parseCommand ([] :: parts) = (.INVALID, .INVALID) := by
        rw [parseCommand_cons, findCommand_nil]
        rfl
      exact absurd (getCommand_of_parsed hnone) h
    · simp only [bytesIn, List.map_cons, List.sum_cons, List.length_cons]
      omega

theorem mapM_of_forall_eq {α β : Type} {f g : α → StagingM β} {xs : List α}
    (h : ∀ x ∈ xs, f x = g x) : xs.mapM f = xs.mapM g := by
  induction xs with
  | nil => rfl
  | cons x xs ih =>
    have hx : f x = g x := h x List.mem_cons_self
    have hi : xs.mapM f = xs.mapM g := ih fun y hy => h y (List.mem_cons_of_mem x hy)
    rw [List.mapM_cons, List.mapM_cons, hx, hi]

section

variable (doubles : Doubles) (dispatchRead : StagingArea → RedisRequest → Except Fault Bytes)

/-- More fuel than the bytes of the request changes nothing. -/
theorem dispatchReadWrite_fuel {fuel fuel' : Nat} {request : RedisRequest}
    (h : bytesIn request ≤ fuel) (h' : bytesIn request ≤ fuel') :
    dispatchReadWrite doubles dispatchRead fuel request =
      dispatchReadWrite doubles dispatchRead fuel' request := by
  -- on the fuel of one side, as the other can only shrink with it
  induction fuel generalizing fuel' request with
  | zero =>
    unfold dispatchReadWrite
    split
    · rfl
    split
    · rfl
    · rename_i hc
      have := bytesIn_pos (by rw [not_not.mp hc]; decide)
      omega
  | succ fuel ih =>
    unfold dispatchReadWrite
    split
    · rfl
    split
    · rfl
    · rename_i hc
      have hp := bytesIn_pos (by rw [not_not.mp hc]; decide)
      rcases fuel' with _ | fuel'
      · omega
      rcases hd : Transaction.deserialize request with e | _ | tx
      · rfl
      · rfl
      · have hm : tx.requests.mapM (dispatchReadWrite doubles dispatchRead fuel) =
            tx.requests.mapM (dispatchReadWrite doubles dispatchRead fuel') := by
          apply mapM_of_forall_eq
          intro req hr
          have := bytesIn_deserialize hd hr
          apply ih <;> omega
        rw [throwing_ok]
        simp only [pure_bind, hm]

/-- A packed transaction is processed as the transaction it unpacks to. -/
theorem dispatchOne_packed {request : RedisRequest} {tx : Transaction}
    (hp : parseCommand request = (.TX_READWRITE, .WRITE))
    (hd : Transaction.deserialize request = .ok (some tx)) :
    dispatchOne doubles dispatchRead request = dispatchAll doubles dispatchRead tx := by
  have hc : getCommand request = .TX_READWRITE := congrArg Prod.fst hp
  have ht : getCommandType request = .WRITE := congrArg Prod.snd hp
  have hb := bytesIn_pos (by rw [hc]; decide)
  obtain ⟨fuel, hf⟩ : ∃ fuel, bytesIn request = fuel + 1 := ⟨bytesIn request - 1, by omega⟩
  have hm : tx.requests.mapM (dispatchReadWrite doubles dispatchRead fuel) =
      tx.requests.mapM (dispatchOne doubles dispatchRead) := by
    apply mapM_of_forall_eq
    intro req hr
    have := bytesIn_deserialize hd hr
    apply dispatchReadWrite_fuel
    · omega
    · exact Nat.le_refl _
  unfold dispatchOne dispatchReadWrite dispatchAll
  rw [if_neg (not_not.mpr ht), if_neg (not_not.mpr hc), hf]
  dsimp only
  rw [hd, throwing_ok, pure_bind]
  dsimp only
  rw [hm]

/-- A phantom transaction of one request is processed as that request. -/
theorem dispatchAll_single {tx : Transaction} {req : RedisRequest} (hp : tx.phantom = true)
    (hr : tx.requests = [req]) :
    dispatchAll doubles dispatchRead tx = dispatchOne doubles dispatchRead req := by
  unfold dispatchAll
  rw [hr, hp]
  simp [assertThat, qdbAssert, buildResponse, throwing_ok]

end

/-! ## Both paths agree -/

/-- No command that writes is unknown, or a PING. -/
theorem getCommand_of_write {request : RedisRequest} (ht : getCommandType request = .WRITE) :
    getCommand request ≠ .INVALID ∧ getCommand request ≠ .PING := by
  have hall : ∀ row ∈ redisCmdMap, row.2.2 = .WRITE →
      row.2.1 ≠ .INVALID ∧ row.2.1 ≠ .PING := by decide +kernel
  rcases request with _ | ⟨word, parts⟩
  · cases ht
  unfold getCommandType parseCommand findCommand at ht
  unfold getCommand parseCommand findCommand
  dsimp only at ht ⊢
  rcases hf : redisCmdMap.find? (fun row => sameCommand row.1 word) with _ | row
  · rw [hf] at ht
    cases ht
  · rw [hf] at ht ⊢
    exact hall row (List.mem_of_find?_eq_some hf) ht

section

variable (doubles : Doubles) (dispatchRead : StagingArea → RedisRequest → Except Fault Bytes)

/-- A request that writes passes every check on the way to the staging area. -/
theorem dispatch_of_write {request : RedisRequest} (ht : getCommandType request = .WRITE)
    (m : Machine) (commit : Int) :
    dispatch doubles dispatchRead m request commit =
      commitAfter m true commit (dispatchOne doubles dispatchRead request) := by
  obtain ⟨hi, hp⟩ := getCommand_of_write ht
  unfold dispatch
  rw [if_neg hi, if_neg (fun h => h.2 ht), if_neg hp, if_neg (fun h => h.2 ht), ht]
  rfl

/-- The request that the journal holds is processed as the transaction. -/
theorem dispatch_toRedisRequest {tx : Transaction} (hw : tx.containsWrites = true)
    (hl : tx.serialize.length < 2 ^ 63) (m : Machine) (commit : Int) :
    dispatch doubles dispatchRead m tx.toRedisRequest commit =
      dispatchTransaction doubles dispatchRead m tx commit := by
  unfold dispatchTransaction
  rw [hw]
  unfold Transaction.toRedisRequest
  split
  · rename_i req hp hr
    -- a phantom of one request goes into the journal as that request
    have ht : getCommandType req = .WRITE := by
      have := tx.hasWrites_eq
      rw [hr, show tx.hasWrites = true from hw] at this
      simpa using this.symm
    rw [dispatch_of_write doubles dispatchRead ht, dispatchAll_single doubles dispatchRead hp hr]
  · have hc := Transaction.getCommand_fused tx tx.serialize tx.typeInString
    rw [if_pos (show tx.hasWrites = true from hw)] at hc
    have hd := Transaction.deserialize_packed hl []
    rw [List.append_nil] at hd
    rw [dispatch_of_write doubles dispatchRead (congrArg Prod.snd hc),
      dispatchOne_packed doubles dispatchRead hc hd]

/-- The parts of what goes into the journal have lengths that fit. -/
theorem toRedisRequest_fits {tx : Transaction} (hl : tx.serialize.length < 2 ^ 63) :
    ∀ part ∈ tx.toRedisRequest, part.length < 2 ^ 63 := by
  intro part hp
  unfold Transaction.toRedisRequest at hp
  split at hp
  · rename_i req _ hr
    exact (Transaction.fits_of_serialize hl (hr ▸ List.mem_singleton_self req)).2 part hp
  · simp only [List.mem_cons, List.not_mem_nil, or_false] at hp
    rcases hp with rfl | rfl | rfl
    · unfold Transaction.getFusedCommand
      split <;> decide
    · exact hl
    · unfold Transaction.typeInString
      split <;> decide

/-- An entry that is read back from the journal is processed as the transaction. A string has
fewer than `2 ^ 63` bytes. -/
theorem dispatch_journaled (m : Machine) {tx : Transaction} (hw : tx.containsWrites = true)
    (hl : tx.serialize.length < 2 ^ 63) (term commit : Int) :
    (do
      let entry ← RaftEntry.deserialize
        (RaftEntry.serialize { term, request := tx.toRedisRequest })
      dispatch doubles dispatchRead m entry.request commit) =
      dispatchTransaction doubles dispatchRead m tx commit := by
  rw [bind_of_ok (RaftEntry.deserialize_serialize term (toRedisRequest_fits hl))]
  exact dispatch_toRedisRequest doubles dispatchRead hw hl m commit

end

end RedisDispatcher

/-! ## To run the model -/

/-- Doubles that are whole numbers. -/
def wholeDoubles : StateMachine.Doubles where
  Double := Int
  my_strtod := parseInt64
  strtod := StateMachine.strtoll
  add := (· + ·)
  zero := 0
  toBytes := fun d => decimal d ++ ascii ".000000"

/-- Reads that find nothing. -/
def readsNothing (_ : StagingArea) (_ : RedisRequest) : Except Fault Bytes := .ok Formatter.null

end quarkdb
