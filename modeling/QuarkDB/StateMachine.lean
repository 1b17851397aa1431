-- The state machine: what each write command does to the store. A redis key has
-- a descriptor, with its type and size, and its contents under other keys of the
-- store. Commands run on a staging area, and all they do is committed at once.
import QuarkDB.KeyLocators
import QuarkDB.Transaction

namespace quarkdb

open Endian

/-! ## The store -/

/-- A key of the store. The bytes of a locality hint and its field are kept as the
locator writes them; of all other names only the parts matter, as encoded keys of
different redis keys are taken to be apart. Locators are taken to be sound too: none
of them frees its block (`FieldLocator.Frees`, `LocalityFieldLocator.Frees`). -/
inductive StoreKey
  | descriptor (key : Bytes)
  | string (key : Bytes)
  | field (type : KeyType) (key field : Bytes)
  | localityField (key hintAndField : Bytes)
  | localityIndex (key field : Bytes)
  | lease (key : Bytes)
  | expirationEvent (deadline : UInt64) (key : Bytes)
  | configuration (key : Bytes)
  | clock
  | lastApplied
  deriving Repr, DecidableEq

/-- RocksDB: a finite map. -/
abbrev Store := AList (fun _ : StoreKey => Bytes)

/-- `rocksdb::Status`. -/
inductive Status
  | OK
  | NotFound
  | InvalidArgument (message : String)
  deriving Repr, DecidableEq

def Status.ok (st : Status) : Bool := st = .OK

def Status.isNotFound (st : Status) : Bool := st = .NotFound

def wrongType : Status :=
  .InvalidArgument "WRONGTYPE Operation against a key holding the wrong kind of value"

def malformed (message : String) : Status := .InvalidArgument message

/-! ## Key descriptors -/

def unsignedIntToBinaryString (n : UInt64) : Bytes := (toLittle 8 n.toNat).reverse

def binaryStringToUnsignedInt (bytes : Bytes) : UInt64 := UInt64.ofNat (ofLittle bytes.reverse)

inductive Direction
  | kLeft
  | kRight
  deriving Repr, DecidableEq

def flipDirection : Direction → Direction
  | .kLeft => .kRight
  | .kRight => .kLeft

/-- `index + steps * (int) direction`, for indices of 64 bits. -/
def Direction.walk (d : Direction) (index : UInt64) (steps : Nat) : UInt64 :=
  match d with
  | .kLeft => index - UInt64.ofNat steps
  | .kRight => index + UInt64.ofNat steps

def kIndexInitialValue : UInt64 := 2 ^ 63 - 1

structure KeyDescriptor where
  keyType : KeyType := .kNull
  sz : Int := 0
  startIndex : UInt64 := kIndexInitialValue
  endIndex : UInt64 := kIndexInitialValue
  deriving Repr, DecidableEq

namespace KeyDescriptor

def empty (d : KeyDescriptor) : Bool := d.keyType = .kNull

def getListIndex (d : KeyDescriptor) : Direction → UInt64
  | .kLeft => d.startIndex
  | .kRight => d.endIndex

def setListIndex (d : KeyDescriptor) (direction : Direction) (newindex : UInt64) : KeyDescriptor :=
  match direction with
  | .kLeft => { d with startIndex := newindex }
  | .kRight => { d with endIndex := newindex }

/-- What the descriptors of a type hold: only a size, a size and two indices, or a
size and a version. -/
inductive Layout
  | size
  | indices
  | version
  | none

def layout : KeyType → Layout
  | .kString | .kSet | .kHash | .kLocalityHash => .size
  | .kDeque | .kLease => .indices
  | .kVersionedHash => .version
  | .kNull | .kParseError => .none

def serialize (d : KeyDescriptor) : Except Fault Bytes :=
  match layout d.keyType with
  | .size => .ok (d.keyType.toChar :: bigInt d.sz)
  | .indices => do
    qdbAssert (d.startIndex ≤ d.endIndex) "startIndex <= endIndex"
    return d.keyType.toChar :: (bigInt d.sz ++ (unsignedIntToBinaryString d.startIndex ++
      unsignedIntToBinaryString d.endIndex))
  | .version =>
    .ok (d.keyType.toChar :: (bigInt d.sz ++ unsignedIntToBinaryString d.startIndex))
  | .none => .error (.thrown "attempted to serialize invalid key descriptor")

/-- The constructor from a serialization. -/
def ofBytes (str : Bytes) : Except Fault KeyDescriptor :=
  match str with
  | [] => .error (.assertion "str.size() != 0")
  | c :: rest =>
    let keyType := parseKeyType c
    let sz := ofBigInt (rest.take 8)
    match layout keyType with
    | .size => do
      qdbAssert (rest.length = 8) "str.size() == kHashDescriptorSize"
      return { keyType, sz }
    | .indices => do
      qdbAssert (rest.length = 24) "str.size() == kDequeDescriptorSize"
      let startIndex := binaryStringToUnsignedInt ((rest.drop 8).take 8)
      let endIndex := binaryStringToUnsignedInt ((rest.drop 16).take 8)
      qdbAssert (startIndex ≤ endIndex) "startIndex <= endIndex"
      return { keyType, sz, startIndex, endIndex }
    | .version => do
      qdbAssert (rest.length = 16) "str.size() == kVersionedHashDescriptorSize"
      return { keyType, sz, startIndex := binaryStringToUnsignedInt ((rest.drop 8).take 8) }
    | .none => .error (.thrown "error parsing key descriptor - unknown key type")

end KeyDescriptor

/-! ## Staging areas -/

/-- The updates to one versioned hash in a transaction. -/
structure VersionedHashRevision where
  currentRevision : UInt64 := 0
  updateBatch : List (Bytes × Bytes) := []
  deriving Repr, DecidableEq

structure StagingArea where
  /-- The store, as reads through the write batch see it. -/
  store : Store
  /-- What the write batch puts, and does not delete again. -/
  batch : Store := ∅
  /-- `mExpirationCache`: deadlines and leases, the next one first. -/
  expirationCache : List (UInt64 × Bytes)
  revisionTracker : AList (fun _ : Bytes => VersionedHashRevision) := ∅

/-- A command: it returns a value and a staging area, or the process ends. -/
abbrev StagingM := StateT StagingArea (Except Fault)

namespace StagingArea

def get (key : StoreKey) : StagingM (Option Bytes) := do
  return (← MonadState.get).store.lookup key

def keyExists (key : StoreKey) : StagingM Bool := do
  return (← get key).isSome

def put (key : StoreKey) (value : Bytes) : StagingM Unit :=
  modify fun s => { s with store := s.store.insert key value, batch := s.batch.insert key value }

def del (key : StoreKey) : StagingM Unit :=
  modify fun s => { s with store := s.store.erase key, batch := s.batch.erase key }

/-- `readFromWriteBatch`. -/
def inWriteBatch (key : StoreKey) : StagingM Bool := do
  return ((← MonadState.get).batch.lookup key).isSome

/-- Delete one key after the other. -/
def delAll : List StoreKey → StagingM Unit
  | [] => pure ()
  | key :: rest => do
    del key
    delAll rest

/-- `remove_all_with_prefix`, for the keys under a prefix. -/
def removeAll (under : StoreKey → Bool) : StagingM Int := do
  let keys := (← MonadState.get).store.keys.filter under
  delAll keys
  return keys.length

end StagingArea

open StagingArea

def throwing {α : Type} (call : Except Fault α) : StagingM α := StateT.lift call

theorem throwing_ok {α : Type} (a : α) : throwing (.ok a) = pure a := rfl

def assertThat (holds : Bool) (condition : String) : StagingM Unit :=
  throwing (qdbAssert holds condition)

/-- `THROW_ON_ERROR(stagingArea.exists(key))`. -/
def mustExist (key : StoreKey) : StagingM Unit := do
  if !(← keyExists key) then throw (.thrown "NotFound: ")

def getKeyDescriptor (key : Bytes) : StagingM KeyDescriptor := do
  match ← get (.descriptor key) with
  | none => return {}
  | some bytes => throwing (KeyDescriptor.ofBytes bytes)

/-- A locality field, as `LocalityFieldLocator` addresses it. -/
def localityFieldKey (key hint field : Bytes) : Except Fault StoreKey := do
  qdbAssert (!key.isEmpty) "!redisKey.empty()"
  qdbAssert (!hint.isEmpty) "!hint.empty()"
  return .localityField key (appendEscapedString [] hint ++ field)

/-- The index of a locality field, as `LocalityIndexLocator` addresses it. -/
def localityIndexKey (key field : Bytes) : Except Fault StoreKey := do
  qdbAssert (!key.isEmpty) "!redisKey.empty()"
  qdbAssert (!field.isEmpty) "!field.empty()"
  return .localityIndex key field

/-! ## Write operations -/

/-- The flag `finalized` is left out: every path below finalizes or cancels its
operation once, and does not use it afterwards. -/
structure WriteOperation where
  redisKey : Bytes
  keyinfo : KeyDescriptor
  redisKeyExists : Bool
  isValid : Bool

namespace WriteOperation

/-- The constructor. -/
def start (key : Bytes) (type : KeyType) : StagingM WriteOperation := do
  let keyinfo ← getKeyDescriptor key
  if keyinfo.empty then
    let fresh : KeyDescriptor := { keyType := type }
    return {
      redisKey := key
      keyinfo := if type = .kVersionedHash then { fresh with startIndex := 0 } else fresh
      redisKeyExists := false
      isValid := true }
  else
    return { redisKey := key, keyinfo, redisKeyExists := true, isValid := keyinfo.keyType = type }

def keySize (op : WriteOperation) : Int := op.keyinfo.sz

def assertWritable (op : WriteOperation) : StagingM Unit := do
  if !op.isValid then throw (.thrown "WriteOperation not valid!")

/-- Where a value without a field is stored. -/
def valueKey (op : WriteOperation) : Except Fault StoreKey :=
  if op.keyinfo.keyType = .kString then .ok (.string op.redisKey)
  else if op.keyinfo.keyType = .kLease then .ok (.lease op.redisKey)
  else .error (.thrown "writing without a field makes sense only for strings and leases")

def write (op : WriteOperation) (value : Bytes) : StagingM Unit := do
  op.assertWritable
  put (← throwing op.valueKey) value

/-- A field, as `FieldLocator` addresses it. -/
def fieldKey (op : WriteOperation) (field : Bytes) : Except Fault StoreKey := do
  qdbAssert op.keyinfo.keyType.bearsFields "keyType is one of kHash, kSet, kDeque, kVersionedHash"
  return .field op.keyinfo.keyType op.redisKey field

def getField (op : WriteOperation) (field : Bytes) : StagingM (Option Bytes) := do
  op.assertWritable
  get (← throwing (op.fieldKey field))

def fieldExists (op : WriteOperation) (field : Bytes) : StagingM Bool := do
  op.assertWritable
  keyExists (← throwing (op.fieldKey field))

def writeField (op : WriteOperation) (field value : Bytes) : StagingM Unit := do
  op.assertWritable
  put (← throwing (op.fieldKey field)) value

/-- Delete what is stored under a key, and say if there was something. -/
def deleteKey (key : StoreKey) : StagingM Bool := do
  let found ← keyExists key
  if found then del key
  return found

def deleteField (op : WriteOperation) (field : Bytes) : StagingM Bool := do
  op.assertWritable
  deleteKey (← throwing (op.fieldKey field))

/-- What the operations on locality fields check. -/
def assertLocality (op : WriteOperation) : StagingM Unit := do
  op.assertWritable
  assertThat (op.keyinfo.keyType = .kLocalityHash) "keyinfo.getKeyType() == KeyType::kLocalityHash"

def localityFieldExists (op : WriteOperation) (hint field : Bytes) : StagingM Bool := do
  op.assertLocality
  keyExists (← throwing (localityFieldKey op.redisKey hint field))

def writeLocalityField (op : WriteOperation) (hint field value : Bytes) : StagingM Unit := do
  op.assertLocality
  put (← throwing (localityFieldKey op.redisKey hint field)) value

def deleteLocalityField (op : WriteOperation) (hint field : Bytes) : StagingM Bool := do
  op.assertLocality
  deleteKey (← throwing (localityFieldKey op.redisKey hint field))

def getLocalityIndex (op : WriteOperation) (field : Bytes) : StagingM (Option Bytes) := do
  op.assertLocality
  get (← throwing (localityIndexKey op.redisKey field))

def writeLocalityIndex (op : WriteOperation) (field hint : Bytes) : StagingM Unit := do
  op.assertLocality
  put (← throwing (localityIndexKey op.redisKey field)) hint

def getAndDeleteLocalityIndex (op : WriteOperation) (field : Bytes) : StagingM (Option Bytes) := do
  op.assertLocality
  let key ← throwing (localityIndexKey op.redisKey field)
  let hint ← get key
  if hint.isSome then del key
  return hint

def descriptorModifiedAlreadyInWriteBatch (op : WriteOperation) : StagingM Bool :=
  inWriteBatch (.descriptor op.redisKey)

def finalize (op : WriteOperation) (newsize : Int) (forceUpdate : Bool) : StagingM Unit := do
  op.assertWritable
  if newsize < 0 then throw (.thrown "invalid newsize: ")
  if newsize = 0 ∧ op.keyinfo.keyType ≠ .kVersionedHash then del (.descriptor op.redisKey)
  else if op.keyinfo.sz ≠ newsize ∨ forceUpdate then
    put (.descriptor op.redisKey) (← throwing { op.keyinfo with sz := newsize }.serialize)

end WriteOperation

/-! ## Commands on strings, hashes and sets -/

namespace StateMachine

/-- Start an operation, and do something with it if the key has the right type. -/
def withOperation {α : Type} (key : Bytes) (type : KeyType) (otherwise : α)
    (body : WriteOperation → StagingM α) : StagingM α := do
  let operation ← WriteOperation.start key type
  if operation.isValid then body operation else return otherwise

/-- A size plus or minus a count, in an `int64_t`. -/
def sum64 (size count : Int) : Int := signed (size + count)

def set (key value : Bytes) : StagingM Status :=
  withOperation key .kString wrongType fun operation => do
    operation.write value
    operation.finalize value.length false
    return .OK

def hset (key field value : Bytes) : StagingM (Status × Bool) :=
  withOperation key .kHash (wrongType, false) fun operation => do
    let fieldcreated := !(← operation.fieldExists field)
    let newsize := sum64 operation.keySize (if fieldcreated then 1 else 0)
    operation.writeField field value
    operation.finalize newsize false
    return (.OK, fieldcreated)

/-- The loop of `hmset`: the size after the fields are written. -/
def hmsetLoop (operation : WriteOperation) (newsize : Int) : List Bytes → StagingM Int
  | field :: value :: rest => do
    let fieldcreated := !(← operation.fieldExists field)
    operation.writeField field value
    hmsetLoop operation (sum64 newsize (if fieldcreated then 1 else 0)) rest
  | _ => return newsize

def hmset (key : Bytes) (args : List Bytes) : StagingM Status := do
  if args.length % 2 ≠ 0 then
    throw (.thrown "hmset: distance between start and end iterators must be an even number")
  withOperation key .kHash wrongType fun operation => do
    let newsize ← hmsetLoop operation operation.keySize args
    operation.finalize newsize false
    return .OK

def hsetnx (key field value : Bytes) : StagingM (Status × Bool) :=
  withOperation key .kHash (wrongType, false) fun operation => do
    let fieldcreated := !(← operation.fieldExists field)
    let newsize := sum64 operation.keySize (if fieldcreated then 1 else 0)
    if fieldcreated then operation.writeField field value
    operation.finalize newsize false
    return (.OK, fieldcreated)

/-- `strtoll`: the number at the start of a string, or the bound it is beyond. -/
def strtoll (str : Bytes) : Int :=
  let body := str.dropWhile isSpace
  let n : Int :=
    match body with
    | 45 :: rest => -digitsValue (rest.takeWhile isDigit)
    | 43 :: rest => digitsValue (rest.takeWhile isDigit)
    | _ => digitsValue (body.takeWhile isDigit)
  max (-2 ^ 63) (min n (2 ^ 63 - 1))

/-- `hincrby` and `hincrbyfloat`, for numbers that are read, added and printed in
their own way. A value that is malformed still leaves what was read of it. -/
def increment {ν : Type} (parse : Bytes → Option ν) (readStart : Bytes → ν) (add : ν → ν → ν)
    (zero : ν) (toBytes : ν → Bytes) (malformedArg malformedValue : String)
    (key field incrby : Bytes) : StagingM (Status × ν) :=
  match parse incrby with
  | none => return (malformed malformedArg, zero)
  | some incr =>
    withOperation key .kHash (wrongType, zero) fun operation => do
      let value ← operation.getField field
      let old := match value with
        | none => some zero
        | some bytes => parse bytes
      match old with
      | none =>
        operation.finalize operation.keySize false
        return (malformed malformedValue, readStart (value.getD []))
      | some old =>
        operation.writeField field (toBytes (add old incr))
        operation.finalize (sum64 operation.keySize (if value.isSome then 0 else 1)) false
        return (.OK, add old incr)

def hincrby (key field incrby : Bytes) : StagingM (Status × Int) :=
  increment parseInt64 strtoll (fun a b => signed (a + b)) 0 decimal
    "value is not an integer or out of range" "hash value is not an integer" key field incrby

/-- How doubles are read, added and printed. -/
structure Doubles where
  Double : Type
  my_strtod : Bytes → Option Double
  strtod : Bytes → Double
  add : Double → Double → Double
  zero : Double
  toBytes : Double → Bytes

def hincrbyfloat (doubles : Doubles) (key field incrby : Bytes) :
    StagingM (Status × doubles.Double) :=
  increment doubles.my_strtod doubles.strtod doubles.add doubles.zero doubles.toBytes
    "value is not a float or out of range" "hash value is not a float" key field incrby

/-- The loop of `hdel`, `srem` and `vhdel`: how many of the fields were there. -/
def deleteLoop (operation : WriteOperation) : List Bytes → StagingM Int
  | [] => return 0
  | field :: rest => do
    let found ← operation.deleteField field
    let removed ← deleteLoop operation rest
    return removed + (if found then 1 else 0)

/-- `hdel` and `srem`. -/
def deleteFields (type : KeyType) (key : Bytes) (fields : List Bytes) : StagingM (Status × Int) :=
  withOperation key type (wrongType, 0) fun operation => do
    let removed ← deleteLoop operation fields
    operation.finalize (sum64 operation.keySize (-removed)) false
    return (.OK, removed)

def hdel (key : Bytes) (fields : List Bytes) : StagingM (Status × Int) :=
  deleteFields .kHash key fields

def srem (key : Bytes) (elements : List Bytes) : StagingM (Status × Int) :=
  deleteFields .kSet key elements

/-- The loop of `hclone`. -/
def writeAll (operation : WriteOperation) : List (Bytes × Bytes) → StagingM Unit
  | [] => pure ()
  | (field, value) :: rest => do
    operation.writeField field value
    writeAll operation rest

/-- The fields of a key and their values, as an iterator finds them. -/
def fieldsOf (store : Store) (type : KeyType) (key : Bytes) : List (Bytes × Bytes) :=
  store.entries.filterMap fun e =>
    match e.1 with
    | .field t k f => if t = type ∧ k = key then some (f, e.2) else none
    | _ => none

def hclone (source target : Bytes) : StagingM Status :=
  withOperation target .kHash wrongType fun operation => do
    if operation.redisKeyExists then
      return .InvalidArgument "ERR target key already exists, will not overwrite"
    let sourceKeyInfo ← getKeyDescriptor source
    if sourceKeyInfo.empty then return .OK
    else if sourceKeyInfo.keyType ≠ .kHash then return wrongType
    else
      let fields := fieldsOf (← MonadState.get).store .kHash source
      writeAll operation fields
      assertThat (fields.length = sourceKeyInfo.sz) "newsize == sourceKeyInfo.getSize()"
      operation.finalize fields.length false
      return .OK

/-- The loop of `sadd`: how many elements are new. -/
def saddLoop (operation : WriteOperation) : List Bytes → StagingM Int
  | [] => return 0
  | element :: rest => do
    let found ← operation.fieldExists element
    if !found then operation.writeField element (ascii "1")
    let added ← saddLoop operation rest
    return added + (if found then 0 else 1)

def sadd (key : Bytes) (elements : List Bytes) : StagingM (Status × Int) :=
  withOperation key .kSet (wrongType, 0) fun operation => do
    let added ← saddLoop operation elements
    operation.finalize (sum64 operation.keySize added) false
    return (.OK, added)

def smove (source destination element : Bytes) : StagingM (Status × Int) :=
  withOperation source .kSet (wrongType, 0) fun operation1 => do
    let operation2 ← WriteOperation.start destination .kSet
    if !operation2.isValid then
      operation1.finalize operation1.keySize false
      return (wrongType, 0)
    else if ← operation1.deleteField element then
      operation1.finalize (sum64 operation1.keySize (-1)) false
      if ← operation2.fieldExists element then
        operation2.finalize operation2.keySize false
      else
        operation2.writeField element (ascii "1")
        operation2.finalize (sum64 operation2.keySize 1) false
      return (.OK, 1)
    else
      operation1.finalize operation1.keySize false
      operation2.finalize operation2.keySize false
      return (.OK, 0)

/-! ## Deques -/

/-- The loop of `dequePush`. -/
def pushLoop (operation : WriteOperation) (direction : Direction) (listIndex : UInt64) :
    Nat → List Bytes → StagingM Unit
  | _, [] => pure ()
  | itemsAdded, item :: rest => do
    operation.writeField (unsignedIntToBinaryString (direction.walk listIndex itemsAdded)) item
    pushLoop operation direction listIndex (itemsAdded + 1) rest

def dequePush (direction : Direction) (key : Bytes) (items : List Bytes) :
    StagingM (Status × Int) :=
  withOperation key .kDeque (wrongType, 0) fun operation => do
    let descriptor := operation.keyinfo
    let listIndex := descriptor.getListIndex direction
    pushLoop operation direction listIndex 0 items
    let descriptor := descriptor.setListIndex direction (direction.walk listIndex items.length)
    let descriptor :=
      if operation.keySize = 0 then
        descriptor.setListIndex (flipDirection direction)
          ((flipDirection direction).walk listIndex 1)
      else descriptor
    let length := sum64 operation.keySize items.length
    { operation with keyinfo := descriptor }.finalize length false
    return (.OK, length)

def dequePop (direction : Direction) (key : Bytes) : StagingM (Status × Bytes) :=
  withOperation key .kDeque (wrongType, []) fun operation => do
    if operation.keySize = 0 then
      operation.finalize 0 false
      return (.NotFound, [])
    else
      let descriptor := operation.keyinfo
      let victim := (flipDirection direction).walk (descriptor.getListIndex direction) 1
      let field := unsignedIntToBinaryString victim
      match ← operation.getField field with
      | none => throw (.assertion "operation.getField(field, item)")
      | some item =>
        assertThat (← operation.deleteField field) "operation.deleteField(field)"
        let descriptor := descriptor.setListIndex direction victim
        { operation with keyinfo := descriptor }.finalize (sum64 operation.keySize (-1)) false
        return (.OK, item)

/-- The loop of `dequeTrimFront`. -/
def trimLoop (operation : WriteOperation) : Nat → UInt64 → StagingM Unit
  | 0, _ => pure ()
  | toRemove + 1, nextToEliminate => do
    assertThat (← operation.deleteField (unsignedIntToBinaryString nextToEliminate))
      "operation.deleteField(unsignedIntToBinaryString(nextToEliminate))"
    trimLoop operation toRemove (nextToEliminate + 1)

def dequeTrimFront (key maxToKeepStr : Bytes) : StagingM (Status × Int) :=
  match parseInt64 maxToKeepStr with
  | none => return (malformed "value is not an integer or out of range", 0)
  | some maxToKeep =>
    if maxToKeep < 0 then return (malformed "value is not an integer or out of range", 0)
    else
      withOperation key .kDeque (wrongType, 0) fun operation => do
        let descriptor := operation.keyinfo
        let toRemove := descriptor.sz - maxToKeep
        if toRemove ≤ 0 then return (.OK, 0)
        else
          trimLoop operation toRemove.toNat (descriptor.startIndex + 1)
          let startIndex := descriptor.startIndex + UInt64.ofNat toRemove.toNat
          let left := descriptor.endIndex - startIndex - 1
          assertThat (left = UInt64.ofNat maxToKeep.toNat)
            "descriptor.getEndIndex() - descriptor.getStartIndex() - 1 == (uint64_t) maxToKeep"
          { operation with keyinfo := { descriptor with startIndex } }.finalize
            (signed left.toNat) false
          return (.OK, toRemove)

/-! ## Locality hashes -/

/-- Write one field, and say if it is new. -/
def lhsetInternal (operation : WriteOperation) (field hint value : Bytes) : StagingM Bool := do
  if ← operation.localityFieldExists hint field then
    operation.writeLocalityField hint field value
    return false
  else
    match ← operation.getLocalityIndex field with
    | some previousHint =>
      -- A different locality hint: drop the old entry, insert the new one.
      assertThat (← operation.deleteLocalityField previousHint field)
        "operation.deleteLocalityField(previousHint, field)"
      operation.writeLocalityField hint field value
      operation.writeLocalityIndex field hint
      return false
    | none =>
      operation.writeLocalityField hint field value
      operation.writeLocalityIndex field hint
      return true

/-- The loop of `lhmset`: how many fields are new. -/
def lhmsetLoop (operation : WriteOperation) : List Bytes → StagingM Int
  | field :: hint :: value :: rest => do
    let fieldcreated ← lhsetInternal operation field hint value
    let created ← lhmsetLoop operation rest
    return created + (if fieldcreated then 1 else 0)
  | _ => return 0

def lhmset (key : Bytes) (args : List Bytes) : StagingM Status := do
  if args.length % 3 ≠ 0 then
    throw (.thrown "lhmset: distance between start and end iterators must be a multiple of three")
  withOperation key .kLocalityHash wrongType fun operation => do
    let created ← lhmsetLoop operation args
    operation.finalize (sum64 operation.keySize created) false
    return .OK

def lhset (key field hint value : Bytes) : StagingM (Status × Bool) :=
  withOperation key .kLocalityHash (wrongType, false) fun operation => do
    let fieldcreated ← lhsetInternal operation field hint value
    operation.finalize (sum64 operation.keySize (if fieldcreated then 1 else 0)) false
    return (.OK, fieldcreated)

/-- The loop of `lhdel`. -/
def lhdelLoop (operation : WriteOperation) : List Bytes → StagingM Int
  | [] => return 0
  | field :: rest => do
    let hint ← operation.getAndDeleteLocalityIndex field
    match hint with
    | none => pure ()
    | some hint =>
      assertThat (← operation.deleteLocalityField hint field)
        "operation.deleteLocalityField(hint, *it)"
    let removed ← lhdelLoop operation rest
    return removed + (if hint.isSome then 1 else 0)

def lhdel (key : Bytes) (fields : List Bytes) : StagingM (Status × Int) :=
  withOperation key .kLocalityHash (wrongType, 0) fun operation => do
    let removed ← lhdelLoop operation fields
    operation.finalize (sum64 operation.keySize (-removed)) false
    return (.OK, removed)

def assertKeyType (key : Bytes) (keytype : KeyType) : StagingM Bool := do
  let keyinfo ← getKeyDescriptor key
  return keyinfo.empty || keyinfo.keyType = keytype

def lhlocdel (key field hint : Bytes) : StagingM (Status × Int) := do
  if !(← assertKeyType key .kLocalityHash) then return (wrongType, 0)
  else if ← keyExists (← throwing (localityFieldKey key hint field)) then
    let (st, removed) ← lhdel key [field]
    assertThat (removed = 1) "removed == 1"
    return (st, removed)
  else return (.OK, 0)

def hget (key field : Bytes) : StagingM (Status × Bytes) := do
  if !(← assertKeyType key .kHash) then return (wrongType, [])
  else
    match ← get (.field .kHash key field) with
    | some value => return (.OK, value)
    | none => return (.NotFound, [])

def lhget (key field hint : Bytes) : StagingM (Status × Bytes) := do
  if !(← assertKeyType key .kLocalityHash) then return (wrongType, [])
  else
    let direct ← if hint.isEmpty then pure none
      else get (← throwing (localityFieldKey key hint field))
    match direct with
    | some value => return (.OK, value)
    | none =>
      match ← get (← throwing (localityIndexKey key field)) with
      | none => return (.NotFound, [])
      | some correctHint =>
        if !hint.isEmpty then assertThat (hint ≠ correctHint) "hint != correctHint"
        match ← get (← throwing (localityFieldKey key correctHint field)) with
        | some value => return (.OK, value)
        | none => throw (.thrown "NotFound: ")

/-! ## Leases -/

/-- `ExpirationEventCache::insert`: a multimap keeps what is due first in front. -/
def cacheInsert (deadline : UInt64) (key : Bytes) : StagingM Unit := do
  let s ← MonadState.get
  assertThat (!s.expirationCache.any fun e : UInt64 × Bytes => e.2 = key) "mStoredLeases.count(leaseName) == 0u"
  MonadStateOf.set { s with
    expirationCache :=
      s.expirationCache.takeWhile (fun e : UInt64 × Bytes => e.1 ≤ deadline) ++ (deadline, key) ::
        s.expirationCache.dropWhile (fun e : UInt64 × Bytes => e.1 ≤ deadline) }

/-- `ExpirationEventCache::remove`. -/
def cacheRemove (deadline : UInt64) (key : Bytes) : StagingM Unit := do
  let s ← MonadState.get
  if (deadline, key) ∈ s.expirationCache then
    MonadStateOf.set { s with expirationCache := s.expirationCache.erase (deadline, key) }
  else throw (.thrown "unable to find lease to remove: ")

/-- `lease_release` with a clock of zero. -/
def leaseRelease (key : Bytes) : StagingM Status :=
  withOperation key .kLease wrongType fun operation => do
    if !operation.redisKeyExists then
      operation.finalize 0 false
      return .NotFound
    else
      let event := StoreKey.expirationEvent operation.keyinfo.endIndex key
      mustExist event
      cacheRemove operation.keyinfo.endIndex key
      del event
      mustExist (.lease key)
      del (.lease key)
      operation.finalize 0 false
      return .OK

def getClock : StagingM UInt64 := do
  match ← get .clock with
  | none => throw (.thrown "NotFound: ")
  | some prevValue =>
    if prevValue.length ≠ 8 then throw (.thrown "Clock corruption, expected exactly 8 bytes, got ")
    return binaryStringToUnsignedInt prevValue

/-- The loop of `advanceClock`. Each release removes a lease from the cache, so the
size of the cache is enough fuel. -/
def releaseExpired : Nat → UInt64 → StagingM Unit
  | 0, _ => pure ()
  | fuel + 1, newValue => do
    match (← MonadState.get).expirationCache with
    | [] => pure ()
    | (deadline, key) :: _ =>
      if deadline ≤ newValue then
        assertThat (← leaseRelease key).ok "lease_release(stagingArea, front, ClockValue(0)).ok()"
        releaseExpired fuel newValue

def advanceClock (newValue : UInt64) : StagingM Unit := do
  let prevValue ← getClock
  if newValue < prevValue then
    throw (.thrown "Attempted to set state machine clock in the past: ")
  releaseExpired (← MonadState.get).expirationCache.length newValue
  put .clock (unsignedIntToBinaryString newValue)

def maybeAdvanceClock (clockUpdate : UInt64) : StagingM UInt64 := do
  let currentClock ← getClock
  if currentClock < clockUpdate then
    advanceClock clockUpdate
    return clockUpdate
  else return currentClock

def lease_release (key : Bytes) (clockUpdate : UInt64) : StagingM Status := do
  if clockUpdate ≠ 0 then
    let _ ← maybeAdvanceClock clockUpdate
  leaseRelease key

/-- The holder and the deadline of a lease. -/
def lease_get (key : Bytes) (clockUpdate : UInt64) : StagingM (Status × Bytes × UInt64) := do
  let _ ← maybeAdvanceClock clockUpdate
  let keyinfo ← getKeyDescriptor key
  if keyinfo.empty then return (.NotFound, [], 0)
  else if keyinfo.keyType ≠ .kLease then return (wrongType, [], 0)
  else
    match ← get (.lease key) with
    | none => throw (.thrown "NotFound: ")
    | some value => return (.OK, value, keyinfo.endIndex)

inductive LeaseAcquisitionStatus
  | kKeyTypeMismatch
  | kFailedDueToOtherOwner
  | kAcquired
  | kRenewed
  deriving Repr, DecidableEq

def lease_acquire (key value : Bytes) (clockUpdate duration : UInt64) :
    StagingM (LeaseAcquisitionStatus × Bytes × UInt64) := do
  assertThat (!value.isEmpty) "!value.empty()"
  let clockUpdate ← maybeAdvanceClock clockUpdate
  withOperation key .kLease (.kKeyTypeMismatch, [], 0) fun operation => do
    let oldLeaseHolder ← get (.lease key)
    if oldLeaseHolder.isSome ∧ oldLeaseHolder ≠ some value then
      return (.kFailedDueToOtherOwner, oldLeaseHolder.getD [], operation.keyinfo.endIndex)
    else
      let descriptor := operation.keyinfo
      if operation.redisKeyExists then
        let oldEvent := StoreKey.expirationEvent descriptor.endIndex key
        cacheRemove descriptor.endIndex key
        mustExist oldEvent
        del oldEvent
      let expirationTimestamp := clockUpdate + duration
      let descriptor := { descriptor with startIndex := clockUpdate, endIndex := expirationTimestamp }
      cacheInsert expirationTimestamp key
      put (.expirationEvent expirationTimestamp key) (ascii "1")
      let operation := { operation with keyinfo := descriptor }
      operation.write value
      operation.finalize value.length true
      return (if operation.redisKeyExists then .kRenewed else .kAcquired, value, expirationTimestamp)

/-! ## Versioned hashes -/

/-- Change the revision of a key in the transaction. -/
def updateRevision (key : Bytes) (update : VersionedHashRevision → VersionedHashRevision) :
    StagingM Unit :=
  modify fun s => { s with
    revisionTracker := s.revisionTracker.insert key
      (update ((s.revisionTracker.lookup key).getD {})) }

def setRevisionNumber (key : Bytes) (rev : UInt64) : StagingM Unit := do
  let revision := ((← MonadState.get).revisionTracker.lookup key).getD {}
  if revision.currentRevision ≠ 0 then
    assertThat (revision.currentRevision = rev) "currentRevision == rev"
  else updateRevision key fun r => { r with currentRevision := rev }

def addUpdates (key : Bytes) (updates : List (Bytes × Bytes)) : StagingM Unit :=
  updateRevision key fun r => { r with updateBatch := r.updateBatch ++ updates }

/-- Each transaction counts as a single version: the next one, unless the key was
modified already. -/
def nextVersion (operation : WriteOperation) (changed : Bool) : StagingM UInt64 := do
  if changed ∧ !(← operation.descriptorModifiedAlreadyInWriteBatch) then
    return operation.keyinfo.startIndex + 1
  else return operation.keyinfo.startIndex

def vhset (key field value : Bytes) : StagingM (Status × UInt64) :=
  withOperation key .kVersionedHash (wrongType, 0) fun operation => do
    let fieldcreated := !(← operation.fieldExists field)
    let newsize := sum64 operation.keySize (if fieldcreated then 1 else 0)
    operation.writeField field value
    let version ← nextVersion operation true
    setRevisionNumber key version
    addUpdates key [(field, value)]
    { operation with keyinfo := { operation.keyinfo with startIndex := version } }.finalize newsize
      true
    return (.OK, version)

def vhdel (key : Bytes) (fields : List Bytes) : StagingM (Status × UInt64) :=
  withOperation key .kVersionedHash (wrongType, 0) fun operation => do
    let removed ← deleteLoop operation fields
    addUpdates key (fields.map fun field => (field, []))
    let version ← nextVersion operation (removed ≠ 0)
    setRevisionNumber key version
    { operation with keyinfo := { operation.keyinfo with startIndex := version } }.finalize
      (sum64 operation.keySize (-removed)) true
    return (.OK, version)

/-! ## Commands on keys of any type -/

def isField (type : KeyType) (key : Bytes) : StoreKey → Bool
  | .field t k _ => t = type ∧ k = key
  | _ => false

def isLocalityField (key : Bytes) : StoreKey → Bool
  | .localityField k _ => k = key
  | _ => false

def isLocalityIndex (key : Bytes) : StoreKey → Bool
  | .localityIndex k _ => k = key
  | _ => false

/-- The prefix of internal keys and of the configuration is skipped by
`remove_all_with_prefix`. -/
def isData : StoreKey → Bool
  | .configuration _ | .clock | .lastApplied => false
  | _ => true

/-- Remove all keys under a prefix; the descriptor must count as many. -/
def removeCounted (under : StoreKey → Bool) (size : Int) : StagingM Unit := do
  let count ← removeAll under
  if count ≠ size then
    throw (.thrown "mismatch between keyInfo counter and number of elements deleted by remove_all_with_prefix: ")

/-- Remove the contents of a key. -/
def removeContents (key : Bytes) (keyInfo : KeyDescriptor) : StagingM Unit := do
  match keyInfo.keyType with
  | .kString => do
    mustExist (.string key)
    del (.string key)
  | .kHash | .kSet | .kDeque | .kVersionedHash =>
    removeCounted (isField keyInfo.keyType key) keyInfo.sz
  | .kLocalityHash => do
    assertThat (!key.isEmpty) "!redisKey.empty()"
    removeCounted (isLocalityField key) keyInfo.sz
    removeCounted (isLocalityIndex key) keyInfo.sz
  | .kLease => do
    if !(← leaseRelease key).ok then throw (.thrown "NotFound: ")
  | _ => throw (.thrown "DEL called on unknown keytype - should never happen")

/-- The loop of `del`: how many keys were there. -/
def delKeys : List Bytes → StagingM Int
  | [] => return 0
  | key :: rest => do
    let keyInfo ← getKeyDescriptor key
    if keyInfo.empty then delKeys rest
    else
      removeContents key keyInfo
      StagingArea.del (.descriptor key)
      let removed ← delKeys rest
      return removed + 1

def flushall : StagingM Status := do
  let _ ← removeAll isData
  modify fun s => { s with expirationCache := [] }
  return .OK

def configSet (key value : Bytes) : StagingM Status := do
  put (.configuration key) value
  return .OK

def artificiallySlowWriteNeverUseThis (sleepStr : Bytes) : StagingM Status :=
  match parseInt64 sleepStr with
  | none => return malformed "value is not an integer or out of range"
  | some sleepMs =>
    if sleepMs < 0 then return malformed "value is not an integer or out of range" else return .OK

end StateMachine

end quarkdb
