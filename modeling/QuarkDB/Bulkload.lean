-- Bulkload: commands write their data and read nothing, and no descriptors are kept. When
-- all is loaded, one pass over the sorted store builds the descriptors.
import QuarkDB.Batches
import QuarkDB.Counters
import QuarkDB.ReverseLocator

namespace quarkdb

open StateMachine RedisDispatcher

/-! ## Staging areas in bulkload mode -/

/-- The store, with what the write batch puts: nothing that is written is read again. -/
abbrev BulkM := StateT Store (Except Fault)

namespace Bulkload

/-- No reads during bulkload mode. -/
def get (_ : StoreKey) : BulkM (Option Bytes) := return none

def keyExists (key : StoreKey) : BulkM Bool := do
  return (← get key).isSome

/-- Key descriptors are ignored, they are all built at the end. -/
def put (key : StoreKey) (value : Bytes) : BulkM Unit :=
  match key with
  | .descriptor _ => pure ()
  | _ => modify fun store => store.insert key value

def del (_ : StoreKey) : BulkM Unit := throw (.thrown "no deletions allowed during bulk load")

def throwing {α : Type} (call : Except Fault α) : BulkM α := StateT.lift call

def assertThat (holds : Bool) (condition : String) : BulkM Unit := throwing (qdbAssert holds condition)

/-! ## Write operations -/

/-- The constructor. -/
def start (key : Bytes) (type : KeyType) : BulkM WriteOperation := do
  let keyinfo ← match ← get (.descriptor key) with
    | none => pure {}
    | some bytes => throwing (KeyDescriptor.ofBytes bytes)
  if keyinfo.empty then
    let fresh : KeyDescriptor := { keyType := type }
    return {
      redisKey := key
      keyinfo := if type = .kVersionedHash then { fresh with startIndex := 0 } else fresh
      redisKeyExists := false
      isValid := true }
  else
    return { redisKey := key, keyinfo, redisKeyExists := true, isValid := keyinfo.keyType = type }

def assertWritable (op : WriteOperation) : BulkM Unit := do
  if !op.isValid then throw (.thrown "WriteOperation not valid!")

def write (op : WriteOperation) (value : Bytes) : BulkM Unit := do
  assertWritable op
  put (← throwing op.valueKey) value

def fieldExists (op : WriteOperation) (field : Bytes) : BulkM Bool := do
  assertWritable op
  keyExists (← throwing (op.fieldKey field))

def writeField (op : WriteOperation) (field value : Bytes) : BulkM Unit := do
  assertWritable op
  put (← throwing (op.fieldKey field)) value

def assertLocality (op : WriteOperation) : BulkM Unit := do
  assertWritable op
  assertThat (op.keyinfo.keyType = .kLocalityHash) "keyinfo.getKeyType() == KeyType::kLocalityHash"

def localityFieldExists (op : WriteOperation) (hint field : Bytes) : BulkM Bool := do
  assertLocality op
  keyExists (← throwing (localityFieldKey op.redisKey hint field))

def writeLocalityField (op : WriteOperation) (hint field value : Bytes) : BulkM Unit := do
  assertLocality op
  put (← throwing (localityFieldKey op.redisKey hint field)) value

def deleteLocalityField (op : WriteOperation) (hint field : Bytes) : BulkM Bool := do
  assertLocality op
  let key ← throwing (localityFieldKey op.redisKey hint field)
  let found ← keyExists key
  if found then del key
  return found

def getLocalityIndex (op : WriteOperation) (field : Bytes) : BulkM (Option Bytes) := do
  assertLocality op
  get (← throwing (localityIndexKey op.redisKey field))

def writeLocalityIndex (op : WriteOperation) (field hint : Bytes) : BulkM Unit := do
  assertLocality op
  put (← throwing (localityIndexKey op.redisKey field)) hint

def finalize (op : WriteOperation) (newsize : Int) : BulkM Unit := do
  assertWritable op
  if newsize < 0 then throw (.thrown "invalid newsize: ")
  if newsize = 0 ∧ op.keyinfo.keyType ≠ .kVersionedHash then del (.descriptor op.redisKey)
  else if op.keyinfo.sz ≠ newsize then
    put (.descriptor op.redisKey) (← throwing { op.keyinfo with sz := newsize }.serialize)

/-! ## Commands -/

def withOperation {α : Type} (key : Bytes) (type : KeyType) (otherwise : α)
    (body : WriteOperation → BulkM α) : BulkM α := do
  let operation ← start key type
  if operation.isValid then body operation else return otherwise

def set (key value : Bytes) : BulkM Status :=
  withOperation key .kString wrongType fun operation => do
    write operation value
    finalize operation value.length
    return .OK

def hset (key field value : Bytes) : BulkM (Status × Bool) :=
  withOperation key .kHash (wrongType, false) fun operation => do
    let fieldcreated := !(← fieldExists operation field)
    let newsize := sum64 operation.keySize (if fieldcreated then 1 else 0)
    writeField operation field value
    finalize operation newsize
    return (.OK, fieldcreated)

/-- The loop of `hmset`. -/
def hmsetLoop (operation : WriteOperation) (newsize : Int) : List Bytes → BulkM Int
  | field :: value :: rest => do
    let fieldcreated := !(← fieldExists operation field)
    writeField operation field value
    hmsetLoop operation (sum64 newsize (if fieldcreated then 1 else 0)) rest
  | _ => return newsize

def hmset (key : Bytes) (args : List Bytes) : BulkM Status := do
  if args.length % 2 ≠ 0 then
    throw (.thrown "hmset: distance between start and end iterators must be an even number")
  withOperation key .kHash wrongType fun operation => do
    let newsize ← hmsetLoop operation operation.keySize args
    finalize operation newsize
    return .OK

/-- The loop of `sadd`. -/
def saddLoop (operation : WriteOperation) : List Bytes → BulkM Int
  | [] => return 0
  | element :: rest => do
    let found ← fieldExists operation element
    if !found then writeField operation element (ascii "1")
    let added ← saddLoop operation rest
    return added + (if found then 0 else 1)

def sadd (key : Bytes) (elements : List Bytes) : BulkM (Status × Int) :=
  withOperation key .kSet (wrongType, 0) fun operation => do
    let added ← saddLoop operation elements
    finalize operation (sum64 operation.keySize added)
    return (.OK, added)

def lhsetInternal (operation : WriteOperation) (field hint value : Bytes) : BulkM Bool := do
  if ← localityFieldExists operation hint field then
    writeLocalityField operation hint field value
    return false
  else
    match ← getLocalityIndex operation field with
    | some previousHint =>
      assertThat (← deleteLocalityField operation previousHint field)
        "operation.deleteLocalityField(previousHint, field)"
      writeLocalityField operation hint field value
      writeLocalityIndex operation field hint
      return false
    | none =>
      writeLocalityField operation hint field value
      writeLocalityIndex operation field hint
      return true

/-- The loop of `lhmset`. -/
def lhmsetLoop (operation : WriteOperation) : List Bytes → BulkM Int
  | field :: hint :: value :: rest => do
    let fieldcreated ← lhsetInternal operation field hint value
    let created ← lhmsetLoop operation rest
    return created + (if fieldcreated then 1 else 0)
  | _ => return 0

def lhmset (key : Bytes) (args : List Bytes) : BulkM Status := do
  if args.length % 3 ≠ 0 then
    throw (.thrown "lhmset: distance between start and end iterators must be a multiple of three")
  withOperation key .kLocalityHash wrongType fun operation => do
    let created ← lhmsetLoop operation args
    finalize operation (sum64 operation.keySize created)
    return .OK

def lhset (key field hint value : Bytes) : BulkM (Status × Bool) :=
  withOperation key .kLocalityHash (wrongType, false) fun operation => do
    let fieldcreated ← lhsetInternal operation field hint value
    finalize operation (sum64 operation.keySize (if fieldcreated then 1 else 0))
    return (.OK, fieldcreated)

end Bulkload

/-! ## What is loaded -/

inductive LoadCommand
  | SET
  | HSET
  | HMSET
  | SADD
  | LHSET
  | LHMSET
  deriving Repr, DecidableEq

def LoadCommand.toCommand : LoadCommand → RedisCommand
  | .SET => .SET
  | .HSET => .HSET
  | .HMSET => .HMSET
  | .SADD => .SADD
  | .LHSET => .LHSET
  | .LHMSET => .LHMSET

/-- A request with one of these commands. -/
structure Load where
  command : LoadCommand
  request : RedisRequest
  named : getCommand request = command.toCommand

namespace Load

/-- `dispatchWrite`, in bulkload mode. -/
def dispatchWrite (load : Load) : BulkM Bytes :=
  let name := load.request.headD []
  match load.command, load.request.tail with
  | .SET, [key, value] => do return Formatter.fromStatus (← Bulkload.set key value)
  | .SET, _ => return Formatter.errArgs name
  | .HSET, [key, field, value] => do return replyWith (← Bulkload.hset key field value) flag
  | .HSET, _ => return Formatter.errArgs name
  | .HMSET, key :: args =>
    if args.length < 2 ∨ args.length % 2 ≠ 0 then return Formatter.errArgs name
    else do return Formatter.fromStatus (← Bulkload.hmset key args)
  | .HMSET, _ => return Formatter.errArgs name
  | .SADD, key :: element :: elements => do
    return replyWith (← Bulkload.sadd key (element :: elements)) Formatter.integer
  | .SADD, _ => return Formatter.errArgs name
  | .LHSET, [key, field, hint, value] => do
    return replyWith (← Bulkload.lhset key field hint value) flag
  | .LHSET, _ => return Formatter.errArgs name
  | .LHMSET, key :: args =>
    if args.length < 3 ∨ args.length % 3 ≠ 0 then return Formatter.errArgs name
    else do return Formatter.fromStatus (← Bulkload.lhmset key args)
  | .LHMSET, _ => return Formatter.errArgs name

end Load

/-- One batch for each request. -/
def loadAll : List Load → BulkM Unit
  | [] => pure ()
  | load :: rest => do
    let _ ← load.dispatchWrite
    loadAll rest

/-- The same requests in normal mode, where a client sends them without an index. -/
def runAll (doubles : Doubles) (dispatchRead : StagingArea → RedisRequest → Except Fault Bytes) :
    Machine → List Load → Except Fault Machine
  | m, [] => .ok m
  | m, load :: rest => do
    let (_, m') ← dispatch doubles dispatchRead m load.request 0
    runAll doubles dispatchRead m' rest

/-! ## One pass over the store -/

/-- A key of the store, as its locator writes it. -/
def StoreKey.toRaw : StoreKey → Bytes
  | .descriptor key => ascii "!" ++ key
  | .string key => KeyType.kString.toChar :: key
  | .field type key name => appendEscapedString [type.toChar] key ++ name
  | .localityField key hintAndField => localityPrefix .kData key ++ hintAndField
  | .localityIndex key name => localityPrefix .kIndex key ++ name
  | .lease key => KeyType.kLease.toChar :: key
  | .expirationEvent deadline key => ascii "@" ++ (unsignedIntToBinaryString deadline ++ key)
  | .configuration key => ascii "~" ++ key
  | .clock => ascii "__clock"
  | .lastApplied => ascii "__last-applied"

/-- The entries of the store, as `getRawIterator` goes through them. -/
def sortedEntries (store : Store) : List (StoreKey × Bytes) :=
  (store.entries.map fun e => (e.1, e.2)).mergeSort fun e e' => bytesLe e.1.toRaw e'.1.toRaw

def rawRecords (store : Store) : List (Bytes × Bytes) :=
  (sortedEntries store).map fun e => (e.1.toRaw, e.2)

def ReverseLocator.isLocalityIndex (r : ReverseLocator) : Except Fault Bool := do
  if r.keyType ≠ .kLocalityHash then return false
  let field ← r.firstChunk.getRawSuffix
  qdbAssert (field.length ≠ 0) "field.size() != 0u"
  return (← charAt field 0) = InternalLocalityFieldType.kIndex.toChar

/-- What the constructor keeps while it goes through the store. -/
structure KeyDescriptorBuilder where
  currentPrefix : Bytes := []
  currentKey : Bytes := []
  descriptor : KeyDescriptor := {}
  descriptorBatch : List (StoreKey × Bytes) := []
  deriving Repr, DecidableEq

namespace KeyDescriptorBuilder

def appendToWriteBatch (b : KeyDescriptorBuilder) : Except Fault KeyDescriptorBuilder := do
  if b.currentKey.isEmpty then return { descriptorBatch := b.descriptorBatch }
  else
    let serialization ← b.descriptor.serialize
    return { descriptorBatch := b.descriptorBatch ++ [(.descriptor b.currentKey, serialization)] }

/-- One turn of the loop. -/
def visit (b : KeyDescriptorBuilder) (record : Bytes × Bytes) :
    Except Fault KeyDescriptorBuilder := do
  -- internal keys are skipped
  if (← charAt record.1 0) = 95 then return b
  else
    let revlocator ← ReverseLocator.ofSlice record.1
    if revlocator.getKeyType = .kParseError then return b
    else if revlocator.getKeyType = .kString then
      let b ← b.appendToWriteBatch
      let currentKey ← revlocator.getOriginalKey
      appendToWriteBatch { b with
        currentKey
        descriptor := { b.descriptor with keyType := .kString, sz := record.2.length } }
    else
      -- a key that has a prefix
      let rawPrefix ← revlocator.getRawPrefixUntilBoundary
      let b ← if b.currentPrefix ≠ rawPrefix then do
          let b ← b.appendToWriteBatch
          let currentKey ← revlocator.getOriginalKey
          pure { b with
            currentPrefix := rawPrefix
            currentKey
            descriptor := { b.descriptor with keyType := revlocator.getKeyType, sz := 0 } }
        else pure b
      if ← revlocator.isLocalityIndex then return b
      else return { b with descriptor := { b.descriptor with sz := sum64 b.descriptor.sz 1 } }

/-- The constructor: what its write batch puts. -/
def build (store : Store) : Except Fault (List (StoreKey × Bytes)) := do
  let b ← (rawRecords store).foldlM visit {}
  let b ← b.appendToWriteBatch
  return b.descriptorBatch

end KeyDescriptorBuilder

/-- Put one entry after the other. -/
def putAll (store : Store) (entries : List (StoreKey × Bytes)) : Store :=
  entries.foldl (fun store e => store.insert e.1 e.2) store

def finalizeBulkload (store : Store) : Except Fault Store := do
  let descriptorBatch ← KeyDescriptorBuilder.build store
  return putAll store descriptorBatch

/-- A new state machine is loaded, and bulkload is over. -/
def bulkload (loads : List Load) : Except Fault Store := do
  let (_, store) ← (loadAll loads).run freshMachine.store
  finalizeBulkload store

end quarkdb
