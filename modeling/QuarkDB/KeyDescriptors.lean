-- Key descriptors as bytes, from the buffer that they are written in to the descriptor that is
-- read back. Indices are written and read as signed numbers.
import QuarkDB.Memory
import QuarkDB.Operations

namespace quarkdb

open Endian Memory

theorem ok_bind {α β : Type} (a : α) (f : α → Except Fault β) : (Except.ok a >>= f) = f a := by
  simp only [bind, Except.bind]

/-! ## Numbers -/

/-- An `int64_t` made from a `uint64_t`. -/
def toSigned (n : UInt64) : Int := signed n.toNat

/-- A `uint64_t` made from an `int64_t`. -/
def toUnsigned (x : Int) : UInt64 := UInt64.ofNat (word x)

def intToBinaryString (num : Int) : Bytes := bigInt num

/-- `binaryStringToInt`, which reads 8 bytes wherever it is pointed at. -/
def binaryStringToInt (buff : Bytes) : Except Fault Int :=
  if buff.length < 8 then .error .outOfBounds else .ok (ofBigInt (buff.take 8))

theorem word_signed (x : Int) : word (signed x) = word x := by
  unfold word signed
  rw [show (2 ^ 64 : Int) = ((2 ^ 64 : Nat) : Int) from rfl, Int.bmod_emod]

theorem word_toNat (n : UInt64) : word (n.toNat : Int) = n.toNat := by
  have h := n.toNat_lt
  unfold word
  omega

/-- Nothing is lost on the way through a signed number. -/
theorem intToBinaryString_toSigned (n : UInt64) :
    intToBinaryString (toSigned n) = unsignedIntToBinaryString n := by
  unfold intToBinaryString toSigned bigInt unsignedIntToBinaryString
  rw [word_signed, word_toNat]

theorem toUnsigned_ofBigInt {bytes : Bytes} (h : bytes.length = 8) :
    toUnsigned (ofBigInt bytes) = binaryStringToUnsignedInt bytes := by
  have hlt := ofLittle_lt bytes.reverse
  rw [List.length_reverse, h] at hlt
  unfold toUnsigned ofBigInt binaryStringToUnsignedInt
  rw [word_signed]
  congr 1
  unfold word
  omega

/-! ## The buffer -/

/-- `StaticBuffer`. Its bytes are whatever was there before, until they are written. -/
structure StaticBuffer (static_size : Nat) where
  contents : Bytes
  runtime_size : Nat := static_size
  length_contents : contents.length = static_size

namespace StaticBuffer

variable {static_size : Nat}

def toView (b : StaticBuffer static_size) : Bytes := b.contents.take b.runtime_size

/-- Despite its name it also grows the buffer, up to its static size. -/
def shrink (newsize : Nat) : Call (StaticBuffer static_size) Unit := do
  liftM (qdbAssert (newsize ≤ static_size) "newsize <= static_size")
  modify fun b => { b with runtime_size := newsize }

/-- The buffer after bytes are written at an offset. -/
def written (b : StaticBuffer static_size) (offset : Nat) (bytes : Bytes)
    (h : offset + bytes.length ≤ static_size) : StaticBuffer static_size where
  contents := patch b.contents offset bytes
  runtime_size := b.runtime_size
  length_contents := by rw [length_patch (by rw [b.length_contents]; exact h), b.length_contents]

/-- Bytes are written to `data() + offset`. -/
def put (offset : Nat) (bytes : Bytes) : Call (StaticBuffer static_size) Unit :=
  ExceptT.mk fun b =>
    if h : offset + bytes.length ≤ static_size then (.ok (), b.written offset bytes h)
    else (.error .outOfBounds, b)

theorem on_put {offset : Nat} {bytes : Bytes} (h : offset + bytes.length ≤ static_size)
    (b : StaticBuffer static_size) :
    (put offset bytes).on b = (.ok (), b.written offset bytes h) := dif_pos h

theorem on_shrink {newsize : Nat} (h : newsize ≤ static_size) (b : StaticBuffer static_size) :
    (shrink newsize).on b = (.ok (), { b with runtime_size := newsize }) := by
  unfold shrink
  rw [decide_eq_true h]
  rfl

end StaticBuffer

namespace KeyDescriptor

def kMaxDescriptorSize : Nat := 28
def kHashDescriptorSize : Nat := 9
def kDequeDescriptorSize : Nat := 25
def kVersionedHashDescriptorSize : Nat := 17
def kOffsetSize : Nat := 1
def kOffsetStartIndex : Nat := 9
def kOffsetEndIndex : Nat := 17

open StaticBuffer

/-- `serialize`, with the buffer of the descriptor as its state. -/
def serializeInto (d : KeyDescriptor) : Call (StaticBuffer kMaxDescriptorSize) Bytes := do
  put 0 [d.keyType.toChar]
  match layout d.keyType with
  | .size =>
    shrink kHashDescriptorSize
    put kOffsetSize (intToBinaryString d.sz)
    return (← get).toView
  | .indices =>
    shrink kDequeDescriptorSize
    put kOffsetSize (intToBinaryString d.sz)
    put kOffsetStartIndex (intToBinaryString (toSigned d.startIndex))
    put kOffsetEndIndex (intToBinaryString (toSigned d.endIndex))
    liftM (qdbAssert (d.startIndex ≤ d.endIndex) "startIndex <= endIndex")
    return (← get).toView
  | .version =>
    shrink kVersionedHashDescriptorSize
    put kOffsetSize (intToBinaryString d.sz)
    put kOffsetStartIndex (intToBinaryString (toSigned d.startIndex))
    return (← get).toView
  | .none => throw (.thrown "attempted to serialize invalid key descriptor")

/-- The constructor, with its numbers as they are read. -/
def construct (str : Bytes) : Except Fault KeyDescriptor :=
  match str with
  | [] => .error (.assertion "str.size() != 0")
  | c :: rest => do
    let str := c :: rest
    let keyType := parseKeyType c
    match layout keyType with
    | .size =>
      qdbAssert (str.length = kHashDescriptorSize) "str.size() == kHashDescriptorSize"
      let sz ← binaryStringToInt (str.drop kOffsetSize)
      return { keyType, sz }
    | .indices =>
      qdbAssert (str.length = kDequeDescriptorSize) "str.size() == kDequeDescriptorSize"
      let sz ← binaryStringToInt (str.drop kOffsetSize)
      let startIndex := toUnsigned (← binaryStringToInt (str.drop kOffsetStartIndex))
      let endIndex := toUnsigned (← binaryStringToInt (str.drop kOffsetEndIndex))
      qdbAssert (startIndex ≤ endIndex) "startIndex <= endIndex"
      return { keyType, sz, startIndex, endIndex }
    | .version =>
      qdbAssert (str.length = kVersionedHashDescriptorSize)
        "str.size() == kVersionedHashDescriptorSize"
      let sz ← binaryStringToInt (str.drop kOffsetSize)
      let startIndex := toUnsigned (← binaryStringToInt (str.drop kOffsetStartIndex))
      return { keyType, sz, startIndex }
    | .none => .error (.thrown "error parsing key descriptor - unknown key type")

/-- Whatever the buffer held and however long it was, what is serialized is the descriptor. -/
theorem on_serializeInto (d : KeyDescriptor) (b : StaticBuffer kMaxDescriptorSize) :
    (d.serializeInto.on b).1 = d.serialize := by
  have hsize : (intToBinaryString d.sz).length = 8 := length_bigInt _
  have hstart := length_unsignedIntToBinaryString d.startIndex
  have hend := length_unsignedIntToBinaryString d.endIndex
  have hmax : kMaxDescriptorSize = 28 := rfl
  have h1 : (patch b.contents 0 [d.keyType.toChar]).take 1 = [d.keyType.toChar] :=
    take_patch rfl rfl rfl
  have h9 := take_patch h1 rfl (show 9 = 1 + (intToBinaryString d.sz).length by rw [hsize])
  unfold serializeInto serialize
  rw [Call.on_bind, on_put (by simp [hmax])]
  dsimp only
  cases hl : layout d.keyType with
  | size =>
    dsimp only
    rw [Call.on_bind, on_shrink (by decide)]
    dsimp only
    rw [Call.on_bind, on_put (by rw [hsize]; decide)]
    exact congrArg Except.ok h9
  | indices =>
    have h17 := take_patch h9 (by simp [hsize])
      (show 17 = 9 + (unsignedIntToBinaryString d.startIndex).length by rw [hstart])
    have h25 := take_patch h17 (by simp [hsize, hstart])
      (show 25 = 17 + (unsignedIntToBinaryString d.endIndex).length by rw [hend])
    dsimp only
    rw [Call.on_bind, on_shrink (by decide)]
    dsimp only
    rw [Call.on_bind, on_put (by rw [hsize]; decide)]
    dsimp only
    rw [Call.on_bind, intToBinaryString_toSigned, on_put (by rw [hstart]; decide)]
    dsimp only
    rw [Call.on_bind, intToBinaryString_toSigned, on_put (by rw [hend]; decide)]
    dsimp only
    rw [Call.on_bind, Call.on_lift]
    by_cases hle : d.startIndex ≤ d.endIndex
    · rw [decide_eq_true hle]
      refine congrArg Except.ok (h25.trans ?_)
      simp [intToBinaryString]
    · rw [decide_eq_false hle]
      rfl
  | version =>
    have h17 := take_patch h9 (by simp [hsize])
      (show 17 = 9 + (unsignedIntToBinaryString d.startIndex).length by rw [hstart])
    dsimp only
    rw [Call.on_bind, on_shrink (by decide)]
    dsimp only
    rw [Call.on_bind, on_put (by rw [hsize]; decide)]
    dsimp only
    rw [Call.on_bind, intToBinaryString_toSigned, on_put (by rw [hstart]; decide)]
    exact congrArg Except.ok h17
  | none => rfl

/-- Reading at an offset behind the type, where there are 8 bytes. -/
theorem binaryStringToInt_drop {c : UInt8} {rest : Bytes} {offset : Nat}
    (h : offset + 8 ≤ rest.length) :
    binaryStringToInt ((c :: rest).drop (offset + 1)) = .ok (ofBigInt ((rest.drop offset).take 8)) := by
  unfold binaryStringToInt
  rw [List.drop_succ_cons, if_neg (by rw [List.length_drop]; omega)]

theorem toUnsigned_read {rest : Bytes} {offset : Nat} (h : offset + 8 ≤ rest.length) :
    toUnsigned (ofBigInt ((rest.drop offset).take 8)) =
      binaryStringToUnsignedInt ((rest.drop offset).take 8) := by
  apply toUnsigned_ofBigInt
  rw [List.length_take, List.length_drop]
  omega

/-- The signed numbers on the way make no difference. -/
theorem construct_eq (str : Bytes) : construct str = ofBytes str := by
  cases str with
  | nil => rfl
  | cons c rest =>
    have hsize : 8 ≤ rest.length → binaryStringToInt ((c :: rest).drop kOffsetSize) =
        .ok (ofBigInt (rest.take 8)) := fun h => @binaryStringToInt_drop c rest 0 (by omega)
    have hstart : 16 ≤ rest.length → binaryStringToInt ((c :: rest).drop kOffsetStartIndex) =
        .ok (ofBigInt ((rest.drop 8).take 8)) := fun h => @binaryStringToInt_drop c rest 8 (by omega)
    have hend : 24 ≤ rest.length → binaryStringToInt ((c :: rest).drop kOffsetEndIndex) =
        .ok (ofBigInt ((rest.drop 16).take 8)) := fun h => @binaryStringToInt_drop c rest 16 (by omega)
    unfold construct ofBytes
    dsimp only
    cases layout (parseKeyType c) with
    | size =>
      by_cases h : rest.length = 8
      · simp [kHashDescriptorSize, h, hsize (by omega), bind, Except.bind]
      · simp [kHashDescriptorSize, h, bind, Except.bind]
    | indices =>
      by_cases h : rest.length = 24
      · dsimp only
        have h1 : 8 + 8 ≤ rest.length := by omega
        have h2 : 16 + 8 ≤ rest.length := by omega
        have hlen : (c :: rest).length = kDequeDescriptorSize := congrArg Nat.succ h
        rw [decide_eq_true hlen, decide_eq_true h, hsize (by omega), hstart (by omega),
          hend (by omega), ← toUnsigned_read h1, ← toUnsigned_read h2]
        simp only [qdbAssert_true, ok_bind]
      · simp [kDequeDescriptorSize, h, bind, Except.bind]
    | version =>
      by_cases h : rest.length = 16
      · have h1 : 8 + 8 ≤ rest.length := by omega
        simp [kVersionedHashDescriptorSize, h, hsize (by omega), hstart (by omega),
          toUnsigned_read h1, bind, Except.bind]
      · simp [kVersionedHashDescriptorSize, h, bind, Except.bind]
    | none => rfl

/-! ## The way back -/

/-- The fields that the type stores; the others are those of a new descriptor. -/
def stored (d : KeyDescriptor) : KeyDescriptor :=
  match layout d.keyType with
  | .indices => d
  | .version => { keyType := d.keyType, sz := d.sz, startIndex := d.startIndex }
  | .size | .none => { keyType := d.keyType, sz := d.sz }

theorem serialize_ok {d : KeyDescriptor} (hl : layout d.keyType ≠ .none)
    (ho : layout d.keyType = .indices → d.startIndex ≤ d.endIndex) :
    ∃ bytes, d.serialize = .ok bytes := by
  unfold serialize
  cases h : layout d.keyType with
  | size => exact ⟨_, rfl⟩
  | indices =>
    dsimp only
    rw [decide_eq_true (ho h)]
    exact ⟨_, rfl⟩
  | version => exact ⟨_, rfl⟩
  | none => exact absurd h hl

/-- What a type does not store is not read. -/
theorem stored_of_ofBytes {bytes : Bytes} {d : KeyDescriptor} (h : ofBytes bytes = .ok d) :
    d.stored = d := by
  unfold ofBytes at h
  split at h
  · cases h
  · dsimp only at h
    split at h
    · rename_i hl
      obtain ⟨_, -, h⟩ := ok_of_bind h
      cases h
      unfold stored
      rw [hl]
    · rename_i hl
      obtain ⟨_, -, h⟩ := ok_of_bind h
      obtain ⟨_, -, h⟩ := ok_of_bind h
      cases h
      unfold stored
      rw [hl]
    · rename_i hl
      obtain ⟨_, -, h⟩ := ok_of_bind h
      cases h
      unfold stored
      rw [hl]
    · cases h

/-- A descriptor whose size fits is read back from any buffer that it was serialized in. -/
theorem construct_serializeInto {d : KeyDescriptor} {b : StaticBuffer kMaxDescriptorSize}
    {bytes : Bytes} (hsz : InWord d.sz) (h : (d.serializeInto.on b).1 = .ok bytes) :
    construct bytes = .ok d.stored := by
  rw [on_serializeInto] at h
  obtain ⟨d', hd, ht, hz, hi, hv⟩ := ofBytes_serialize_wrapped h
  have hfit : ofBigInt (bigInt d.sz) = d.sz := ofBigInt_bigInt hsz.1 hsz.2
  rw [construct_eq, hd, ← stored_of_ofBytes hd]
  unfold stored
  rw [ht, hz, hfit]
  cases hl : layout d.keyType with
  | size => rfl
  | indices =>
    obtain ⟨hs, he⟩ := hi hl
    cases d
    cases d'
    cases hs
    cases he
    cases ht
    cases hz.trans hfit
    rfl
  | version => rw [hv hl]
  | none => rfl

end KeyDescriptor

end quarkdb
