-- What each read command answers. Most of them look at the staging area and at nothing else; four
-- also show the dynamic clock of the node, or what rocksdb still holds of older versions. So the
-- follower that applies an entry does to its store what the leader did, but where one of these
-- four is in the transaction the two replies may differ.
import QuarkDB.IterationOrder
import QuarkDB.LocalityScans

namespace quarkdb

open Endian StateMachine StagingArea Formatter Outcome Paging ByteOrder

/-! ## The rows of a store -/

namespace Database

/-- Put a row where it belongs, over any other row with its key. -/
def insertRow (row : Bytes × Bytes) : List (Bytes × Bytes) → List (Bytes × Bytes)
  | [] => [row]
  | next :: rows =>
    if row.1 < next.1 then row :: next :: rows
    else if row.1 = next.1 then row :: rows
    else next :: insertRow row rows

theorem mem_insertRow {row r : Bytes × Bytes} {rows : List (Bytes × Bytes)}
    (h : r ∈ insertRow row rows) : r = row ∨ r ∈ rows := by
  induction rows with
  | nil => exact .inl (List.mem_singleton.mp h)
  | cons next rows ih =>
    unfold insertRow at h
    split_ifs at h
    · exact List.mem_cons.mp h
    · exact (List.mem_cons.mp h).imp_right (List.mem_cons_of_mem next)
    · rcases List.mem_cons.mp h with rfl | h
      · exact .inr List.mem_cons_self
      · exact (ih h).imp_right (List.mem_cons_of_mem next)

theorem sorted_insertRow {row : Bytes × Bytes} {rows : List (Bytes × Bytes)}
    (h : Sorted Prod.fst rows) : Sorted Prod.fst (insertRow row rows) := by
  induction rows with
  | nil => exact List.pairwise_singleton _ row
  | cons next rows ih =>
    obtain ⟨hlt, hrest⟩ := List.pairwise_cons.mp h
    unfold insertRow
    split_ifs with h1 h2
    · refine List.pairwise_cons.mpr ⟨fun r hr => ?_, h⟩
      rcases List.mem_cons.mp hr with rfl | hr
      · exact h1
      · exact lt_trans h1 (hlt r hr)
    · refine List.pairwise_cons.mpr ⟨fun r hr => ?_, hrest⟩
      rw [h2]
      exact hlt r hr
    · refine List.pairwise_cons.mpr ⟨fun r hr => ?_, ih hrest⟩
      rcases mem_insertRow hr with rfl | hr
      · exact lt_of_le_of_ne (not_lt.mp h1) (Ne.symm h2)
      · exact hlt r hr

/-- A new row only takes its place. -/
theorem insertRow_perm {row : Bytes × Bytes} {rows : List (Bytes × Bytes)}
    (h : ∀ r ∈ rows, r.1 ≠ row.1) : (insertRow row rows).Perm (row :: rows) := by
  induction rows with
  | nil => exact .refl _
  | cons next rows ih =>
    unfold insertRow
    split_ifs with h1 h2
    · exact .refl _
    · exact absurd h2.symm (h next List.mem_cons_self)
    · exact ((ih fun r hr => h r (List.mem_cons_of_mem next hr)).cons next).trans
        (List.Perm.swap row next rows)

/-- The rows that an iterator of a staging area goes over. -/
def ofStore (store : Store) : Database where
  rows := (store.entries.map fun e => (e.1.toRaw, e.2)).foldr insertRow []
  sorted := by
    induction store.entries.map fun e => (e.1.toRaw, e.2) with
    | nil => exact List.Pairwise.nil
    | cons row rows ih => exact sorted_insertRow ih

theorem foldr_insertRow_perm {rows : List (Bytes × Bytes)} (h : (rows.map Prod.fst).Nodup) :
    (rows.foldr insertRow []).Perm rows := by
  induction rows with
  | nil => exact .refl _
  | cons row rows ih =>
    obtain ⟨hout, hrest⟩ := List.nodup_cons.mp h
    refine (insertRow_perm fun r hr he => hout ?_).trans ((ih hrest).cons row)
    rw [← he]
    exact List.mem_map_of_mem ((ih hrest).mem_iff.mp hr)

/-- Where no two keys are spelled alike, these are the records of the store. -/
theorem records_ofStore {store : Store}
    (h : ∀ k ∈ store, ∀ k' ∈ store, k.toRaw = k'.toRaw → k = k') :
    (ofStore store).Records store := by
  have hkeys : ((store.entries.map fun e => (e.1.toRaw, e.2)).map Prod.fst).Nodup := by
    rw [List.map_map, show Prod.fst ∘ (fun e : Sigma fun _ : StoreKey => Bytes => (e.1.toRaw, e.2)) =
      StoreKey.toRaw ∘ Sigma.fst from rfl, ← List.map_map]
    exact List.Nodup.map_on (fun k hk k' hk' => h k hk k' hk') store.nodupKeys
  have hperm : (rawRecords store).Perm (store.entries.map fun e => (e.1.toRaw, e.2)) := by
    have hsplit : (store.entries.map fun e => (e.1.toRaw, e.2)) =
        (store.entries.map fun e => (e.1, e.2)).map fun e => (e.1.toRaw, e.2) := by
      rw [List.map_map]
      rfl
    rw [hsplit]
    exact (List.mergeSort_perm _ _).map _
  have hsorted : (rawRecords store).Pairwise fun row row' => row.1 ≤ row'.1 := by
    refine List.pairwise_map.mpr ((List.pairwise_mergeSort ?_ ?_ _).imp bytesLe_iff.mp)
    · intro a b c hab hbc
      exact bytesLe_iff.mpr (le_trans (bytesLe_iff.mp hab) (bytesLe_iff.mp hbc))
    · intro a b
      rw [Bool.or_eq_true, bytesLe_iff, bytesLe_iff]
      exact le_total _ _
  refine ((foldr_insertRow_perm hkeys).trans hperm.symm).eq_of_pairwise ?_
    ((ofStore store).sorted.imp le_of_lt) hsorted
  intro row row' hrow hrow' hle hle'
  have hmem' := hperm.mem_iff.mp hrow'
  have hmem := (foldr_insertRow_perm hkeys).mem_iff.mp hrow
  exact List.inj_on_of_nodup_map hkeys hmem hmem' (le_antisymm hle hle')

end Database

/-! ## The reads -/

/-- `rocksdb::KeyVersion`. -/
structure KeyVersion where
  userKey : Bytes
  value : Bytes
  sequence : UInt64
  type : Int

/-- What a node has besides its store: the dynamic clock, and what rocksdb still knows of keys that
were overwritten or deleted. -/
structure NodeSurroundings where
  dynamicClock : UInt64
  /-- `rocksdb::GetAllKeyVersions`. -/
  getAllKeyVersions : Bytes → Status × List KeyVersion
  /-- The internal keys from a key on, as the iterator of a staging area goes over them. -/
  internalKeys : StagingArea → Bytes → List Bytes

def isTombstone (internalKey : Bytes) : Bool :=
  if internalKey.length < 8 then false
  else
    let valueType := ofLittle (internalKey.drop (internalKey.length - 8)) % 256
    valueType = 0 || valueType = 7

def keyTypeAsString : KeyType → Except Fault Bytes
  | .kNull => .ok (ascii "none")
  | .kParseError =>
    .error (.thrown "given KeyType == kParseError, not representable as string")
  | .kString => .ok (ascii "string")
  | .kSet => .ok (ascii "set")
  | .kHash => .ok (ascii "hash")
  | .kDeque => .ok (ascii "deque")
  | .kLocalityHash => .ok (ascii "locality hash")
  | .kLease => .ok (ascii "lease")
  | .kVersionedHash => .ok (ascii "versioned hash")

namespace StateMachine

def getType (key : Bytes) : StagingM Bytes := do
  let keyinfo ← getKeyDescriptor key
  throwing (keyTypeAsString keyinfo.keyType)

/-- The status of a key that is looked up, and its value. -/
def lookUp (key : StoreKey) : StagingM (Status × Bytes) := do
  match ← StagingArea.get key with
  | some value => return (.OK, value)
  | none => return (.NotFound, [])

/-- `get`, the read of a string. -/
def getString (key : Bytes) : StagingM (Status × Bytes) := do
  if !(← assertKeyType key .kString) then return (wrongType, []) else lookUp (.string key)

/-- `exists`: how many of the keys there are. -/
def countExisting : List Bytes → StagingM Int
  | [] => return 0
  | key :: rest => do
    let keyinfo ← getKeyDescriptor key
    let count ← countExisting rest
    return count + (if keyinfo.empty then 0 else 1)

/-- What `hkeys`, `hgetall`, `hvals` and `smembers` share: the fields and the values of a key, in
their order. -/
def fieldsInOrder (type : KeyType) (key : Bytes) : StagingM (Status × List (Bytes × Bytes)) := do
  if !(← assertKeyType key type) then return (wrongType, [])
  else
    let fields := fieldsOf (← MonadState.get).store type key
    return (.OK, fields.mergeSort fun a b => bytesLe a.1 b.1)

/-- The element is looked up in the snapshot, and a staging area that may write has none. -/
def sismember (readOnly : Bool) (key element : Bytes) : StagingM (Status × Bytes) := do
  if !(← assertKeyType key .kSet) then return (wrongType, [])
  else if !readOnly then throw .outOfBounds
  else lookUp (.field .kSet key element)

def configGet (key : Bytes) : StagingM (Status × Bytes) := lookUp (.configuration key)

end StateMachine

namespace Database

def configGetall (db : Database) : List Bytes :=
  ((db.seek (ascii "~")).takeWhile fun row => ascii "~" <+: row.1).flatMap fun row =>
    [row.1.drop 1, row.2]

def rawScan (db : Database) (key : Bytes) (count : Nat) : List Bytes :=
  ((db.seek key).take (min 1000000 count)).flatMap fun row => [row.1, row.2]

end Database

/-- The clock of the store, with the deadlines and the keys of the leases that are to expire. -/
def lease_get_pending_expiration_events : StagingM (UInt64 × List (UInt64 × Bytes)) := do
  let staticClock ← getClock
  let db := Database.ofStore (← MonadState.get).store
  let iter ← throwing (ExpirationEventIterator.construct db)
  return (staticClock, ← throwing (iter.collect (db.rows.length + 1)))

/-- The keys of the tombstones from a key on. -/
def rawScanTombstones (around : NodeSurroundings) (s : StagingArea) (key : Bytes) (count : Nat) :
    List Bytes :=
  (((around.internalKeys s key).filter isTombstone).take count).map fun internalKey =>
    internalKey.take (internalKey.length - 8)

namespace RedisDispatcher

/-- The scans: an error, or the marker of the next page and this one. -/
def dispatchScan (supportMatch supportMatchloc : Bool) (arguments : List Bytes)
    (page : ScanCommandArguments → Except Fault (Status × Bytes × List Bytes)) :
    Except Fault Bytes := do
  let args ← parseScanCommand supportMatch supportMatchloc arguments
  if args.error ≠ [] then return err args.error
  else
    let (st, newcursor, vec) ← page args
    if st.ok then return scan (markerOf newcursor) vec else return fromStatus st

/-- `RAW_SCAN` and `RAW_SCAN_TOMBSTONES`: a key to begin at and a count, or 50 results. -/
def dispatchRawScan (name : Bytes) (results : Bytes → Nat → List Bytes) : List Bytes → Bytes
  | [] => vector (results [] 50)
  | [cursor] => vector (results cursor 50)
  | [cursor, option, value] =>
    if !caseInsensitiveEquals option (ascii "count") then err (ascii "syntax error")
    else
      match parseInt64 value with
      | none => err (ascii "syntax error")
      | some count =>
        if count ≤ 0 then err (ascii "syntax error") else vector (results cursor count.toNat)
  | _ => errArgs name

/-- The lines that show the two clocks. -/
def clockLines (around : NodeSurroundings) (staticClock : UInt64) : List Bytes :=
  [ascii "STATIC-CLOCK: " ++ decimal staticClock.toNat,
    ascii "DYNAMIC-CLOCK: " ++ decimal around.dynamicClock.toNat]

def pendingReply (around : NodeSurroundings) (pending : UInt64 × List (UInt64 × Bytes)) : Bytes :=
  vector (clockLines around pending.1 ++
    pending.2.map fun e => decimal e.1.toNat ++ ascii ": " ++ e.2)

def versionLines (ver : KeyVersion) : List Bytes :=
  [ascii "KEY: " ++ ver.userKey, ascii "VALUE: " ++ ver.value,
    ascii "SEQUENCE: " ++ decimal ver.sequence.toNat, ascii "TYPE: " ++ decimal ver.type]

section

variable (stringmatchlen : Bytes → Bytes → Bool) (around : NodeSurroundings)

/-- `dispatchRead` for the reads that are left, as far as they see the staging area only. -/
def dispatchStored (readOnly : Bool) (s : StagingArea) (request : RedisRequest) :
    Except Fault Bytes :=
  let name := request.headD []
  let db := Database.ofStore s.store
  match getCommand request, request.tail with
  | .TYPE, [key] => readFrom s do return status (← getType key)
  | .TYPE, _ => .ok (errArgs name)
  | .GET, [key] => readFrom s do return replyOrNull (← getString key) string
  | .GET, _ => .ok (errArgs name)
  | .EXISTS, key :: keys => readFrom s do return integer (← countExisting (key :: keys))
  | .EXISTS, _ => .ok (errArgs name)
  | .KEYS, [pattern] =>
    match db.keys stringmatchlen pattern (db.rows.length + 1) with
    | some ret => .ok (vector ret)
    | none => .error (.thrown "out of fuel")
  | .KEYS, _ => .ok (errArgs name)
  | .SCAN, cursor :: options => dispatchScan true false (cursor :: options) fun args =>
    .ok (.OK, db.scan stringmatchlen args.cursor args.pattern (word args.count) [])
  | .SCAN, _ => .ok (errArgs name)
  | .HKEYS, [key] => readFrom s do
    return replyWith (← fieldsInOrder .kHash key) fun fields => vector (fields.map Prod.fst)
  | .HKEYS, _ => .ok (errArgs name)
  | .HGETALL, [key] => readFrom s do
    return replyWith (← fieldsInOrder .kHash key) fun fields =>
      vector (fields.flatMap fun e => [e.1, e.2])
  | .HGETALL, _ => .ok (errArgs name)
  -- the status is not looked at
  | .HVALS, [key] => readFrom s do
    let (_, fields) ← fieldsInOrder .kHash key
    return vector (fields.map Prod.snd)
  | .HVALS, _ => .ok (errArgs name)
  | .HSCAN, key :: cursor :: options => dispatchScan false false (cursor :: options) fun args =>
    db.hscan key args.cursor (word args.count)
  | .HSCAN, _ => .ok (errArgs name)
  | .SISMEMBER, [key, element] => readFrom s do
    let result ← sismember readOnly key element
    return if result.1.isNotFound then integer 0 else replyWith result fun _ => integer 1
  | .SISMEMBER, _ => .ok (errArgs name)
  | .SMEMBERS, [key] => readFrom s do
    return replyWith (← fieldsInOrder .kSet key) fun fields => vector (fields.map Prod.fst)
  | .SMEMBERS, _ => .ok (errArgs name)
  | .SSCAN, key :: cursor :: options => dispatchScan false false (cursor :: options) fun args =>
    db.sscan key args.cursor (word args.count)
  | .SSCAN, _ => .ok (errArgs name)
  | .DEQUE_SCAN_BACK, _ => db.dispatchDequeScanBack request
  | .CONFIG_GET, [key] => readFrom s do return replyOrNull (← configGet key) string
  | .CONFIG_GET, _ => .ok (errArgs name)
  | .CONFIG_GETALL, [] => .ok (vector db.configGetall)
  | .CONFIG_GETALL, _ => .ok (errArgs name)
  | .LHSCAN, key :: cursor :: options => dispatchScan false true (cursor :: options) fun args =>
    db.lhscan stringmatchlen key args.cursor args.matchloc (word args.count)
  | .LHSCAN, _ => .ok (errArgs name)
  | .RAW_SCAN, args => .ok (dispatchRawScan name db.rawScan args)
  | _, _ => dispatchingError request 0

/-- `dispatchRead` for all that `dispatchRead others` leaves to the others, but packed
transactions. -/
def dispatchOthers (readOnly : Bool) (s : StagingArea) (request : RedisRequest) :
    Except Fault Bytes :=
  let name := request.headD []
  match getCommand request, request.tail with
  | .RAW_SCAN_TOMBSTONES, args => .ok (dispatchRawScan name (rawScanTombstones around s) args)
  | .RAW_GET_ALL_VERSIONS, [key] =>
    .ok (replyWith (around.getAllKeyVersions key) fun versions =>
      vector (versions.flatMap versionLines))
  | .RAW_GET_ALL_VERSIONS, _ => .ok (errArgs name)
  | .CLOCK_GET, [] => readFrom s do return statusVector (clockLines around (← getClock))
  | .CLOCK_GET, _ => .ok (errArgs name)
  | .LEASE_GET_PENDING_EXPIRATION_EVENTS, [] => readFrom s do
    return pendingReply around (← lease_get_pending_expiration_events)
  | .LEASE_GET_PENDING_EXPIRATION_EVENTS, _ => .ok (errArgs name)
  | _, _ => dispatchStored stringmatchlen readOnly s request

/-- `dispatchRead`, with `dispatchReadOnly` unfolded. The fuel is as for a transaction that
writes. -/
def dispatchReadOnly (readOnly : Bool) : Nat → RedisRequest → StagingM Bytes
  | fuel, request =>
    if getCommand request ≠ .TX_READONLY then do
      let others := dispatchOthers stringmatchlen around readOnly
      throwing (dispatchRead others (← MonadState.get) request)
    else
      match fuel with
      | 0 => throw (.thrown "out of fuel")
      | fuel + 1 => do
        match ← throwing (Transaction.deserialize request) with
        | none => throw (.assertion "transaction.deserialize(request)")
        | some transaction =>
          assertThat (!transaction.containsWrites) "!transaction.containsWrites()"
          assertThat (transaction.requests.length ≠ 0) "itemsRemaining >= 1"
          let replies ← transaction.requests.mapM (dispatchReadOnly readOnly fuel)
          return buildResponse transaction.phantom replies

/-- What a node answers to a read, with as much fuel as the request needs. -/
def answerRead (readOnly : Bool) (s : StagingArea) (request : RedisRequest) : Except Fault Bytes :=
  readFrom s (dispatchReadOnly stringmatchlen around readOnly (bytesIn request) request)

end

section

variable (stringmatchlen : Bytes → Bytes → Bool) (around : NodeSurroundings)

/-- More fuel than the bytes of the request changes nothing. -/
theorem dispatchReadOnly_fuel (readOnly : Bool) {fuel fuel' : Nat} {request : RedisRequest}
    (h : bytesIn request ≤ fuel) (h' : bytesIn request ≤ fuel') :
    dispatchReadOnly stringmatchlen around readOnly fuel request =
      dispatchReadOnly stringmatchlen around readOnly fuel' request := by
  induction fuel generalizing fuel' request with
  | zero =>
    unfold dispatchReadOnly
    split
    · rfl
    · rename_i hc
      have := bytesIn_pos (by rw [not_not.mp hc]; decide)
      omega
  | succ fuel ih =>
    unfold dispatchReadOnly
    split
    · rfl
    · rename_i hc
      have hp := bytesIn_pos (by rw [not_not.mp hc]; decide)
      rcases fuel' with _ | fuel'
      · omega
      rcases hd : Transaction.deserialize request with e | _ | tx
      · rfl
      · rfl
      · have hm : tx.requests.mapM (dispatchReadOnly stringmatchlen around readOnly fuel) =
            tx.requests.mapM (dispatchReadOnly stringmatchlen around readOnly fuel') := by
          apply mapM_of_forall_eq
          intro req hr
          have := bytesIn_deserialize hd hr
          apply ih <;> omega
        rw [throwing_ok]
        simp only [pure_bind, hm]

end

/-! ## Two nodes -/

/-- The request, or one that is packed in it, shows more than the store. -/
inductive LooksAround : RedisRequest → Prop
  | tombstones {request : RedisRequest} (hc : getCommand request = .RAW_SCAN_TOMBSTONES) :
    LooksAround request
  | versions {request : RedisRequest} (hc : getCommand request = .RAW_GET_ALL_VERSIONS) :
    LooksAround request
  | clock {request : RedisRequest} (hc : getCommand request = .CLOCK_GET) : LooksAround request
  | pending {request : RedisRequest}
    (hc : getCommand request = .LEASE_GET_PENDING_EXPIRATION_EVENTS) : LooksAround request
  | packed {request req : RedisRequest} {tx : Transaction}
    (hd : Transaction.deserialize request = .ok (some tx)) (hm : req ∈ tx.requests)
    (hl : LooksAround req) : LooksAround request

section

variable (stringmatchlen : Bytes → Bytes → Bool) (leader follower : NodeSurroundings)

/-- A reply that is made of what a command returns. -/
theorem endAlike_readFrom {α : Type} {same : Prop} (s : StagingArea) (command : StagingM α)
    (reply reply' : α → Bytes) (h : same → reply = reply') :
    EndAlike (fun _ => ()) same (readFrom s do return reply (← command))
      (readFrom s do return reply' (← command)) := by
  have hread (f : α → Bytes) : readFrom s (do return f (← command)) =
      command s >>= fun p => .ok (f p.1) := by
    show (command s >>= fun p => .ok (f p.1, p.2)) >>= _ = _
    cases command s <;> rfl
  rw [hread, hread]
  exact endAlike_after _ fun p => ⟨rfl, fun hs => by rw [h hs]⟩

theorem endAlike_dispatchOthers (readOnly : Bool) (s : StagingArea) (request : RedisRequest) :
    EndAlike (fun _ => ()) (¬ LooksAround request)
      (dispatchOthers stringmatchlen leader readOnly s request)
      (dispatchOthers stringmatchlen follower readOnly s request) := by
  unfold dispatchOthers
  dsimp only
  split
  · rename_i hc
    exact ⟨rfl, fun hn => absurd (.tombstones hc) hn⟩
  · rename_i hc _
    exact ⟨rfl, fun hn => absurd (.versions hc) hn⟩
  · exact endAlike_refl _
  · rename_i hc _
    exact endAlike_readFrom s getClock _ _ fun hn => absurd (.clock hc) hn
  · exact endAlike_refl _
  · rename_i hc _
    exact endAlike_readFrom s _ _ _ fun hn => absurd (.pending hc) hn
  · exact endAlike_refl _
  · exact endAlike_refl _

theorem endAlike_dispatchRead (readOnly : Bool) (request : RedisRequest) (s : StagingArea) :
    EndAlike Prod.snd (¬ LooksAround request)
      ((do
        let others := dispatchOthers stringmatchlen leader readOnly
        throwing (dispatchRead others (← MonadState.get) request) : StagingM Bytes) s)
      ((do
        let others := dispatchOthers stringmatchlen follower readOnly
        throwing (dispatchRead others (← MonadState.get) request) : StagingM Bytes) s) := by
  have hothers := endAlike_dispatchOthers stringmatchlen leader follower readOnly s request
  have hread : EndAlike (fun _ => ()) (¬ LooksAround request)
      (dispatchRead (dispatchOthers stringmatchlen leader readOnly) s request)
      (dispatchRead (dispatchOthers stringmatchlen follower readOnly) s request) := by
    unfold dispatchRead
    dsimp only
    split
    all_goals first | exact endAlike_refl _ | exact hothers
  refine endAlike_bind hread ?_
  intro reply reply' _ he
  exact ⟨rfl, fun hn => by rw [he hn]⟩

theorem endAlike_dispatchReadOnly (readOnly : Bool) (fuel : Nat) (request : RedisRequest)
    (s : StagingArea) :
    EndAlike Prod.snd (¬ LooksAround request)
      (dispatchReadOnly stringmatchlen leader readOnly fuel request s)
      (dispatchReadOnly stringmatchlen follower readOnly fuel request s) := by
  -- on the fuel, as packed requests unpack to others
  induction fuel generalizing request s with
  | zero =>
    unfold dispatchReadOnly
    split
    · exact endAlike_dispatchRead stringmatchlen leader follower readOnly request s
    · dsimp only
      exact endAlike_refl _
  | succ fuel ih =>
    unfold dispatchReadOnly
    split
    · exact endAlike_dispatchRead stringmatchlen leader follower readOnly request s
    · dsimp only
      rcases hd : Transaction.deserialize request with e | _ | tx
      · show EndAlike Prod.snd _ (.error e) (.error e)
        exact endAlike_refl _
      · show EndAlike Prod.snd _ (.error _) (.error _)
        exact endAlike_refl _
      · rw [throwing_ok, pure_bind, pure_bind]
        dsimp only
        refine endAlike_then (fun _ t => endAlike_then (fun _ t => ?_) t) s
        refine endAlike_return (endAlike_mapM (fun req hm u => ?_) t) _
        exact (ih req u).weaken fun hn hl => hn (.packed hd hm hl)

theorem endAlike_answerRead (readOnly : Bool) (s : StagingArea) (request : RedisRequest) :
    EndAlike (fun _ => ()) (¬ LooksAround request)
      (answerRead stringmatchlen leader readOnly s request)
      (answerRead stringmatchlen follower readOnly s request) := by
  refine endAlike_bind
    (endAlike_dispatchReadOnly stringmatchlen leader follower readOnly _ request s) ?_
  intro p q _ he
  exact ⟨rfl, fun hn => by rw [he hn]⟩

variable (doubles : Doubles)

theorem endAlike_dispatchReadWrite (readOnly : Bool) (fuel : Nat) (request : RedisRequest)
    (s : StagingArea) :
    EndAlike Prod.snd (¬ LooksAround request)
      (dispatchReadWrite doubles (answerRead stringmatchlen leader readOnly) fuel request s)
      (dispatchReadWrite doubles (answerRead stringmatchlen follower readOnly) fuel request s) := by
  have hread (request : RedisRequest) (s : StagingArea) : EndAlike Prod.snd (¬ LooksAround request)
      ((do throwing (answerRead stringmatchlen leader readOnly (← MonadState.get) request) :
        StagingM Bytes) s)
      ((do throwing (answerRead stringmatchlen follower readOnly (← MonadState.get) request) :
        StagingM Bytes) s) := by
    refine endAlike_bind
      (endAlike_answerRead stringmatchlen leader follower readOnly s request) ?_
    intro reply reply' _ he
    exact ⟨rfl, fun hn => by rw [he hn]⟩
  induction fuel generalizing request s with
  | zero =>
    unfold dispatchReadWrite
    split
    · exact hread request s
    split
    · exact endAlike_refl _
    · dsimp only
      exact endAlike_refl _
  | succ fuel ih =>
    unfold dispatchReadWrite
    split
    · exact hread request s
    split
    · exact endAlike_refl _
    · dsimp only
      rcases hd : Transaction.deserialize request with e | _ | tx
      · show EndAlike Prod.snd _ (.error e) (.error e)
        exact endAlike_refl _
      · show EndAlike Prod.snd _ (.error _) (.error _)
        exact endAlike_refl _
      · rw [throwing_ok, pure_bind, pure_bind]
        dsimp only
        refine endAlike_then (fun _ t => ?_) s
        refine endAlike_return (endAlike_mapM (fun req hm u => ?_) t) _
        exact (ih req u).weaken fun hn hl => hn (.packed hd hm hl)

theorem endAlike_dispatchTransaction (readOnly : Bool) (m : Machine) (tx : Transaction)
    (commit : Int) :
    EndAlike Prod.snd (∀ req ∈ tx.requests, ¬ LooksAround req)
      (dispatchTransaction doubles (answerRead stringmatchlen leader readOnly) m tx commit)
      (dispatchTransaction doubles (answerRead stringmatchlen follower readOnly) m tx commit) := by
  have hall : EndAlike Prod.snd (∀ req ∈ tx.requests, ¬ LooksAround req)
      (dispatchAll doubles (answerRead stringmatchlen leader readOnly) tx (stage m))
      (dispatchAll doubles (answerRead stringmatchlen follower readOnly) tx (stage m)) := by
    unfold dispatchAll
    refine endAlike_then (fun _ t => ?_) (stage m)
    refine endAlike_return (endAlike_mapM (fun req hm u => ?_) t) _
    refine (endAlike_dispatchReadWrite stringmatchlen leader follower doubles readOnly _ req
      u).weaken fun hn => hn req hm
  refine endAlike_bind hall ?_
  rintro ⟨reply, s⟩ ⟨reply', s'⟩ (rfl : s = s') he
  -- what is committed does not depend on the reply
  have hreply (hn : ∀ req ∈ tx.requests, ¬ LooksAround req) : reply = reply' :=
    congrArg Prod.fst (he hn)
  dsimp only
  split
  · exact endAlike_after _ fun m => ⟨rfl, fun hn => by rw [hreply hn]⟩
  · exact ⟨rfl, fun hn => by rw [hreply hn]⟩

/-- The leader executes the transaction it holds, the follower the entry it reads back from its
journal. Both fail, or both leave the same store, the same expiration cache and the same
`lastApplied`, whatever the two nodes have besides. They answer the same bytes, unless a request
shows a dynamic clock or what rocksdb knows of older versions. A string has fewer than `2 ^ 63`
bytes. -/
theorem the_journaled_request_does_what_the_transaction_does (m : Machine) (tx : Transaction)
    (hw : tx.containsWrites = true) (hl : tx.serialize.length < 2 ^ 63) (term commit : Int) :
    let executed :=
      dispatchTransaction doubles (answerRead stringmatchlen leader false) m tx commit
    let applied := do
      let entry ← RaftEntry.deserialize
        (RaftEntry.serialize { term, request := tx.toRedisRequest })
      dispatch doubles (answerRead stringmatchlen follower false) m entry.request commit
    applied.map Prod.snd = executed.map Prod.snd ∧
      ((∀ req ∈ tx.requests, ¬ LooksAround req) → applied = executed) := by
  intro executed applied
  have happlied : applied =
      dispatchTransaction doubles (answerRead stringmatchlen follower false) m tx commit :=
    dispatch_journaled doubles _ m hw hl term commit
  have halike := endAlike_dispatchTransaction stringmatchlen follower leader doubles false m tx
    commit
  rw [happlied]
  exact ⟨halike.shows, halike.equal⟩

end

/-- A request that is none of the four and holds no others. -/
theorem not_looksAround {request : RedisRequest}
    (hc : getCommand request ∉ [.RAW_SCAN_TOMBSTONES, .RAW_GET_ALL_VERSIONS, .CLOCK_GET,
      .LEASE_GET_PENDING_EXPIRATION_EVENTS])
    (hd : Transaction.deserialize request = .ok none) : ¬ LooksAround request := by
  intro h
  cases h with
  | tombstones he => simp [he] at hc
  | versions he => simp [he] at hc
  | clock he => simp [he] at hc
  | pending he => simp [he] at hc
  | packed hd' => cases hd.symm.trans hd'

/-- A node whose dynamic clock shows so much, and that has no older versions. -/
def nodeAt (dynamicClock : UInt64) : NodeSurroundings where
  dynamicClock
  getAllKeyVersions _ := (.OK, [])
  internalKeys _ _ := []

def sixApplied : Machine where
  store := AList.insert .clock (unsignedIntToBinaryString 3) ∅
  expirationCache := []
  lastApplied := 6

theorem a_journaled_block_does_what_the_block_does :
    ∃ tx : Transaction,
      tx.requests = [[ascii "HSET", ascii "k", ascii "f", ascii "v"],
        [ascii "HGET", ascii "k", ascii "f"], [ascii "GET", ascii "x"]] ∧
      Except.map (fun result => (result.1, result.2.lastApplied)) (do
        let entry ← RaftEntry.deserialize
          (RaftEntry.serialize { term := 3, request := tx.toRedisRequest })
        dispatch wholeDoubles (answerRead starMatch (nodeAt 9) false) sixApplied entry.request 7) =
        .ok (ascii "*3\r\n:1\r\n$1\r\nv\r\n$-1\r\n", 7) := by
  let tx := Transaction.ofRequests [[ascii "HSET", ascii "k", ascii "f", ascii "v"],
    [ascii "HGET", ascii "k", ascii "f"], [ascii "GET", ascii "x"]] false (by decide +kernel)
  obtain ⟨hwrites, hlength, hcommands, hok⟩ :
      tx.containsWrites = true ∧ tx.serialize.length < 2 ^ 63 ∧
      (∀ req ∈ tx.requests, getCommand req ∉ [RedisCommand.RAW_SCAN_TOMBSTONES,
        .RAW_GET_ALL_VERSIONS, .CLOCK_GET, .LEASE_GET_PENDING_EXPIRATION_EVENTS]) ∧
      (dispatchTransaction wholeDoubles (answerRead starMatch (nodeAt 5) false) sixApplied tx 7).map
        (fun result => (result.1, result.2.lastApplied)) =
        .ok (ascii "*3\r\n:1\r\n$1\r\nv\r\n$-1\r\n", 7) := by decide +kernel
  refine ⟨tx, rfl, ?_⟩
  rw [(the_journaled_request_does_what_the_transaction_does starMatch (nodeAt 5) (nodeAt 9)
    wholeDoubles sixApplied tx hwrites hlength 3 7).2]
  · exact hok
  · intro req hm
    refine not_looksAround (hcommands req hm) ?_
    simp only [tx, Transaction.ofRequests, List.mem_cons, List.not_mem_nil, or_false] at hm
    rcases hm with rfl | rfl | rfl
    all_goals rfl

/-- The leader answers CLOCK_GET with its own dynamic clock, and the follower with its own. -/
theorem two_nodes_show_two_clocks :
    ∃ tx : Transaction, tx.containsWrites = true ∧
      tx.requests = [[ascii "SET", ascii "x", ascii "1"], [ascii "CLOCK_GET"]] ∧
      (dispatchTransaction wholeDoubles (answerRead starMatch (nodeAt 5) false) sixApplied tx 7).map
          Prod.fst =
        .ok (ascii "*2\r\n+OK\r\n*2\r\n+STATIC-CLOCK: 3\r\n+DYNAMIC-CLOCK: 5\r\n") ∧
      Except.map Prod.fst (do
        let entry ← RaftEntry.deserialize
          (RaftEntry.serialize { term := 3, request := tx.toRedisRequest })
        dispatch wholeDoubles (answerRead starMatch (nodeAt 9) false) sixApplied entry.request 7) =
        .ok (ascii "*2\r\n+OK\r\n*2\r\n+STATIC-CLOCK: 3\r\n+DYNAMIC-CLOCK: 9\r\n") := by
  let tx := Transaction.ofRequests [[ascii "SET", ascii "x", ascii "1"], [ascii "CLOCK_GET"]] false
    (by decide +kernel)
  obtain ⟨hwrites, hlength, hleader, hfollower⟩ :
      tx.containsWrites = true ∧ tx.serialize.length < 2 ^ 63 ∧
      (dispatchTransaction wholeDoubles (answerRead starMatch (nodeAt 5) false) sixApplied tx 7).map
          Prod.fst =
        .ok (ascii "*2\r\n+OK\r\n*2\r\n+STATIC-CLOCK: 3\r\n+DYNAMIC-CLOCK: 5\r\n") ∧
      (dispatchTransaction wholeDoubles (answerRead starMatch (nodeAt 9) false) sixApplied tx 7).map
          Prod.fst =
        .ok (ascii "*2\r\n+OK\r\n*2\r\n+STATIC-CLOCK: 3\r\n+DYNAMIC-CLOCK: 9\r\n") := by
    decide +kernel
  refine ⟨tx, hwrites, rfl, hleader, ?_⟩
  rw [dispatch_journaled _ _ _ hwrites hlength]
  exact hfollower

end RedisDispatcher

end quarkdb
