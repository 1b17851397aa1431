-- How a redis key, a locality hint and a field become one rocksdb key, and
-- when two of these keys meet. A '#' inside a name is escaped, a '|' is not,
-- so a name that ends in '|' can be taken for one that ends in '#'. And a long
-- prefix without a field behind it is lost: its buffer frees it.
import QuarkDB.Bytes

namespace quarkdb

/-! ## Types of keys -/

/-- Types of redis keys supported. -/
inductive KeyType
  | kNull
  | kParseError
  | kString
  | kHash
  | kSet
  | kDeque
  | kLocalityHash
  | kLease
  | kVersionedHash
  deriving Repr, DecidableEq

/-- The character that stands for a type. -/
def KeyType.toChar : KeyType → UInt8
  | .kNull => 0
  | .kParseError => 61
  | .kString => 97
  | .kHash => 98
  | .kSet => 99
  | .kDeque => 100
  | .kLocalityHash => 101
  | .kLease => 102
  | .kVersionedHash => 103

def parseKeyType (c : UInt8) : KeyType :=
  if c = KeyType.kString.toChar then .kString
  else if c = KeyType.kHash.toChar then .kHash
  else if c = KeyType.kSet.toChar then .kSet
  else if c = KeyType.kDeque.toChar then .kDeque
  else if c = KeyType.kLocalityHash.toChar then .kLocalityHash
  else if c = KeyType.kLease.toChar then .kLease
  else if c = KeyType.kVersionedHash.toChar then .kVersionedHash
  else .kParseError

/-- The types a `FieldLocator` accepts: what its assertion checks. -/
def KeyType.bearsFields (t : KeyType) : Bool :=
  t = .kHash || t = .kSet || t = .kDeque || t = .kVersionedHash

inductive InternalLocalityFieldType
  | kData
  | kIndex
  deriving Repr, DecidableEq

def InternalLocalityFieldType.toChar : InternalLocalityFieldType → UInt8
  | .kData => 100
  | .kIndex => 105

/-! ## Escaping -/

/-- The loop of `appendEscapedString`. -/
def escapeHashes : Bytes → Bytes
  | [] => []
  | c :: rest => if c ≠ hash then c :: escapeHashes rest else bar :: hash :: escapeHashes rest

/-- Append a hash-escaped string to the buffer, and the two hashes that end it. -/
def appendEscapedString (keyBuffer str : Bytes) : Bytes :=
  keyBuffer ++ (escapeHashes str ++ [hash, hash])

/-- The callers reserve one byte more for each '#', and two for the end. -/
theorem length_appendEscapedString (keyBuffer str : Bytes) :
    (appendEscapedString keyBuffer str).length =
      keyBuffer.length + str.length + str.count hash + 2 := by
  have h : (escapeHashes str).length = str.length + str.count hash := by
    induction str with
    | nil => rfl
    | cons c rest ih =>
      unfold escapeHashes
      by_cases hc : c = hash
      · simp [hc, ih]; omega
      · simp [hc, ih]; omega
  simp only [appendEscapedString, List.length_append, h, List.length_cons, List.length_nil]
  omega

/-! ## The block of a buffer -/

/-- `KeyBuffer::resize` of a new buffer: 512 bytes are inline, for more it takes a block of the
heap. Only the size of the block is kept here. -/
def newBlock (size : Nat) : Option Nat := if 512 < size then some size else none

/-- `KeyBuffer::expand`. A block that is full and has to take nothing more is freed as if there
were a new one; who writes or reads the buffer next finds freed memory. -/
def expandBlock (heapBuffer : Option Nat) (realSize size : Nat) : Except Fault (Option Nat) :=
  if size < heapBuffer.getD 512 then .ok heapBuffer
  else if realSize < size then .ok (some size)
  else if heapBuffer.isSome then .error .outOfBounds
  else .ok none

theorem expandBlock_full (size : Nat) :
    expandBlock (some size) size (size + 0) = .error .outOfBounds := by
  simp [expandBlock]

theorem exists_expandBlock {heapBuffer : Option Nat} {realSize size : Nat}
    (h : realSize < size ∨ heapBuffer = none) :
    ∃ block, expandBlock heapBuffer realSize size = .ok block := by
  unfold expandBlock
  split_ifs with hroom hmore hfull
  · exact ⟨_, rfl⟩
  · exact ⟨_, rfl⟩
  · rcases h with h | rfl
    · exact absurd h hmore
    · cases hfull
  · exact ⟨_, rfl⟩

/-! ## Locators -/

/-- `keyBuffer` is what the buffer is used for, `heapBuffer` the size of its block. -/
structure FieldLocator where
  keyPrefixSize : Nat
  keyBuffer : Bytes
  heapBuffer : Option Nat
  deriving Repr, DecidableEq

namespace FieldLocator

def resetKey (keyType : KeyType) (redisKey : Bytes) : Except Fault FieldLocator := do
  qdbAssert keyType.bearsFields "keyType is one of kHash, kSet, kDeque, kVersionedHash"
  let keyBuffer := appendEscapedString [keyType.toChar] redisKey
  return { keyPrefixSize := keyBuffer.length, keyBuffer, heapBuffer := newBlock keyBuffer.length }

def resetField (l : FieldLocator) (field : Bytes) : Except Fault FieldLocator := do
  let heapBuffer ← expandBlock l.heapBuffer l.keyPrefixSize (l.keyPrefixSize + field.length)
  return { l with keyBuffer := l.keyBuffer.take l.keyPrefixSize ++ field, heapBuffer }

def getPrefix (l : FieldLocator) : Bytes := l.keyBuffer.take l.keyPrefixSize

def toView (l : FieldLocator) : Bytes := l.keyBuffer

/-- The constructor from a key and a field. -/
def ofField (keyType : KeyType) (redisKey field : Bytes) : Except Fault FieldLocator := do
  let l ← resetKey keyType redisKey
  l.resetField field

end FieldLocator

structure LocalityFieldLocator where
  keyPrefixSize : Nat
  localityPrefixSize : Nat
  keyBuffer : Bytes
  heapBuffer : Option Nat
  deriving Repr, DecidableEq

namespace LocalityFieldLocator

def resetKey (redisKey : Bytes) : Except Fault LocalityFieldLocator := do
  qdbAssert (!redisKey.isEmpty) "!redisKey.empty()"
  let keyBuffer := appendEscapedString [KeyType.kLocalityHash.toChar] redisKey ++
    [InternalLocalityFieldType.kData.toChar]
  return { keyPrefixSize := keyBuffer.length, localityPrefixSize := 0, keyBuffer,
           heapBuffer := newBlock keyBuffer.length }

def resetHint (l : LocalityFieldLocator) (hint : Bytes) : Except Fault LocalityFieldLocator := do
  qdbAssert (!hint.isEmpty) "!hint.empty()"
  qdbAssert (l.keyPrefixSize != 0) "keyPrefixSize != 0"
  let keyBuffer := appendEscapedString (l.keyBuffer.take l.keyPrefixSize) hint
  let heapBuffer ← expandBlock l.heapBuffer l.keyPrefixSize keyBuffer.length
  return { l with localityPrefixSize := keyBuffer.length, keyBuffer, heapBuffer }

def resetField (l : LocalityFieldLocator) (field : Bytes) : Except Fault LocalityFieldLocator := do
  qdbAssert (l.localityPrefixSize != 0) "localityPrefixSize != 0"
  let heapBuffer ← expandBlock l.heapBuffer l.localityPrefixSize
    (l.localityPrefixSize + field.length)
  return { l with keyBuffer := l.keyBuffer.take l.localityPrefixSize ++ field, heapBuffer }

def toView (l : LocalityFieldLocator) : Bytes := l.keyBuffer

/-- The constructor from a key and a hint. Its view is the prefix of the hint. -/
def ofHint (redisKey hint : Bytes) : Except Fault LocalityFieldLocator := do
  let l ← resetKey redisKey
  l.resetHint hint

/-- The constructor from a key, a hint and a field. -/
def ofField (redisKey hint field : Bytes) : Except Fault LocalityFieldLocator := do
  let l ← ofHint redisKey hint
  l.resetField field

end LocalityFieldLocator

/-- Its field is never empty, so that its buffer always grows. -/
structure LocalityIndexLocator where
  keyPrefixSize : Nat
  keyBuffer : Bytes
  deriving Repr, DecidableEq

namespace LocalityIndexLocator

def resetKey (redisKey : Bytes) : Except Fault LocalityIndexLocator := do
  qdbAssert (!redisKey.isEmpty) "!redisKey.empty()"
  let keyBuffer := appendEscapedString [KeyType.kLocalityHash.toChar] redisKey ++
    [InternalLocalityFieldType.kIndex.toChar]
  return { keyPrefixSize := keyBuffer.length, keyBuffer }

def resetField (l : LocalityIndexLocator) (field : Bytes) : Except Fault LocalityIndexLocator := do
  qdbAssert (!field.isEmpty) "!field.empty()"
  return { l with keyBuffer := l.keyBuffer.take l.keyPrefixSize ++ field }

def toView (l : LocalityIndexLocator) : Bytes := l.keyBuffer

/-- The constructor from a key and a field. -/
def ofField (redisKey field : Bytes) : Except Fault LocalityIndexLocator := do
  let l ← resetKey redisKey
  l.resetField field

end LocalityIndexLocator

/-! ## What the views are -/

theorem FieldLocator.resetKey_eq {t : KeyType} (ht : t.bearsFields = true) (k : Bytes) :
    FieldLocator.resetKey t k = .ok
      { keyPrefixSize := (appendEscapedString [t.toChar] k).length,
        keyBuffer := appendEscapedString [t.toChar] k,
        heapBuffer := newBlock (appendEscapedString [t.toChar] k).length } := by
  simp [FieldLocator.resetKey, ht, bind, Except.bind, pure, Except.pure]

/-- The field is empty, and what stands before it fills a block. -/
def FieldLocator.Frees (keyType : KeyType) (redisKey field : Bytes) : Prop :=
  512 < (appendEscapedString [keyType.toChar] redisKey).length ∧ field = []

instance (keyType : KeyType) (redisKey field : Bytes) :
    Decidable (FieldLocator.Frees keyType redisKey field) := inferInstanceAs (Decidable (_ ∧ _))

theorem FieldLocator.not_frees_of_ne {f : Bytes} (hf : f ≠ []) (t : KeyType) (k : Bytes) :
    ¬ FieldLocator.Frees t k f := fun h => hf h.2

theorem FieldLocator.ofField_eq {t : KeyType} (ht : t.bearsFields = true) {k f : Bytes}
    (hn : ¬ FieldLocator.Frees t k f) :
    ∃ heapBuffer, FieldLocator.ofField t k f = .ok
      { keyPrefixSize := (appendEscapedString [t.toChar] k).length,
        keyBuffer := appendEscapedString [t.toChar] k ++ f, heapBuffer } := by
  obtain ⟨block, hb⟩ : ∃ block, expandBlock (newBlock (appendEscapedString [t.toChar] k).length)
      (appendEscapedString [t.toChar] k).length
      ((appendEscapedString [t.toChar] k).length + f.length) = .ok block := by
    apply exists_expandBlock
    by_cases hf : f = []
    · exact .inr (if_neg fun hbig => hn ⟨hbig, hf⟩)
    · exact .inl (Nat.lt_add_of_pos_right (List.length_pos_of_ne_nil hf))
  refine ⟨block, ?_⟩
  unfold FieldLocator.ofField FieldLocator.resetField
  rw [FieldLocator.resetKey_eq ht]
  dsimp only [bind, Except.bind]
  rw [hb, List.take_length]
  rfl

theorem FieldLocator.ofField_frees {t : KeyType} (ht : t.bearsFields = true) {k f : Bytes}
    (h : FieldLocator.Frees t k f) : FieldLocator.ofField t k f = .error .outOfBounds := by
  obtain ⟨hbig, rfl⟩ := h
  unfold FieldLocator.ofField FieldLocator.resetField
  rw [FieldLocator.resetKey_eq ht, newBlock, if_pos hbig]
  dsimp only [bind, Except.bind]
  rw [List.length_nil, expandBlock_full]

/-- What a locator that is there is like. -/
theorem FieldLocator.ofField_ok {t : KeyType} (ht : t.bearsFields = true) {k f : Bytes}
    {l : FieldLocator} (h : FieldLocator.ofField t k f = .ok l) :
    ¬ FieldLocator.Frees t k f ∧ l.keyPrefixSize = (appendEscapedString [t.toChar] k).length ∧
      l.keyBuffer = appendEscapedString [t.toChar] k ++ f := by
  by_cases hn : FieldLocator.Frees t k f
  · rw [FieldLocator.ofField_frees ht hn] at h
    cases h
  · obtain ⟨block, hb⟩ := FieldLocator.ofField_eq ht hn
    rw [hb] at h
    cases h
    exact ⟨hn, rfl, rfl⟩

/-- The bytes before the hint: the type, the escaped key and the kind of entry. -/
def localityPrefix (kind : InternalLocalityFieldType) (redisKey : Bytes) : Bytes :=
  appendEscapedString [KeyType.kLocalityHash.toChar] redisKey ++ [kind.toChar]

theorem LocalityFieldLocator.resetKey_eq {k : Bytes} (hk : k ≠ []) :
    LocalityFieldLocator.resetKey k = .ok
      { keyPrefixSize := (localityPrefix .kData k).length, localityPrefixSize := 0,
        keyBuffer := localityPrefix .kData k,
        heapBuffer := newBlock (localityPrefix .kData k).length } := by
  have hb : k.isEmpty = false := by simpa using hk
  simp [LocalityFieldLocator.resetKey, hb, localityPrefix, bind, Except.bind, pure, Except.pure]

theorem localityPrefix_length_ne_zero (kind : InternalLocalityFieldType) (k : Bytes) :
    (localityPrefix kind k).length ≠ 0 := by
  simp [localityPrefix]

theorem appendEscapedString_length_ne_zero (buf k : Bytes) :
    (appendEscapedString buf k).length ≠ 0 := by
  simp [appendEscapedString]

/-- A hint always makes the buffer grow; its block is full then, if there is one. -/
theorem expandBlock_hint (keyPrefix h : Bytes) :
    expandBlock (newBlock keyPrefix.length) keyPrefix.length
        (appendEscapedString keyPrefix h).length =
      .ok (if 512 ≤ (appendEscapedString keyPrefix h).length then
        some (appendEscapedString keyPrefix h).length else none) := by
  have hlt : keyPrefix.length < (appendEscapedString keyPrefix h).length := by
    rw [length_appendEscapedString]
    omega
  unfold expandBlock newBlock
  by_cases hbig : 512 < keyPrefix.length
  · rw [if_pos hbig, Option.getD_some, if_neg (by omega), if_pos hlt, if_pos (by omega)]
  · rw [if_neg hbig, Option.getD_none]
    by_cases hroom : (appendEscapedString keyPrefix h).length < 512
    · rw [if_pos hroom, if_neg (by omega)]
    · rw [if_neg hroom, if_pos hlt, if_pos (by omega)]

theorem LocalityFieldLocator.resetHint_eq (k : Bytes) {h : Bytes} (hh : h ≠ []) :
    LocalityFieldLocator.resetHint
      { keyPrefixSize := (localityPrefix .kData k).length, localityPrefixSize := 0,
        keyBuffer := localityPrefix .kData k,
        heapBuffer := newBlock (localityPrefix .kData k).length } h = .ok
      { keyPrefixSize := (localityPrefix .kData k).length,
        localityPrefixSize := (appendEscapedString (localityPrefix .kData k) h).length,
        keyBuffer := appendEscapedString (localityPrefix .kData k) h,
        heapBuffer := if 512 ≤ (appendEscapedString (localityPrefix .kData k) h).length then
          some (appendEscapedString (localityPrefix .kData k) h).length else none } := by
  have hb : (!h.isEmpty) = true := by simpa using hh
  have hn : ((localityPrefix .kData k).length != 0) = true := by
    simpa using localityPrefix_length_ne_zero .kData k
  unfold LocalityFieldLocator.resetHint
  dsimp only
  rw [hb, hn, List.take_length, expandBlock_hint]
  rfl

theorem LocalityFieldLocator.ofHint_eq {k h : Bytes} (hk : k ≠ []) (hh : h ≠ []) :
    LocalityFieldLocator.ofHint k h = .ok
      { keyPrefixSize := (localityPrefix .kData k).length,
        localityPrefixSize := (appendEscapedString (localityPrefix .kData k) h).length,
        keyBuffer := appendEscapedString (localityPrefix .kData k) h,
        heapBuffer := if 512 ≤ (appendEscapedString (localityPrefix .kData k) h).length then
          some (appendEscapedString (localityPrefix .kData k) h).length else none } := by
  unfold LocalityFieldLocator.ofHint
  rw [LocalityFieldLocator.resetKey_eq hk]
  exact LocalityFieldLocator.resetHint_eq k hh

/-- A field behind a key and a hint makes what the constructor makes. -/
theorem LocalityFieldLocator.resetField_eq {k h : Bytes} (hk : k ≠ []) (hh : h ≠ []) (f : Bytes) :
    LocalityFieldLocator.resetField
      { keyPrefixSize := (localityPrefix .kData k).length,
        localityPrefixSize := (appendEscapedString (localityPrefix .kData k) h).length,
        keyBuffer := appendEscapedString (localityPrefix .kData k) h,
        heapBuffer := if 512 ≤ (appendEscapedString (localityPrefix .kData k) h).length then
          some (appendEscapedString (localityPrefix .kData k) h).length else none } f =
      LocalityFieldLocator.ofField k h f := by
  unfold LocalityFieldLocator.ofField
  rw [LocalityFieldLocator.ofHint_eq hk hh]
  rfl

/-- The field is empty, and what stands before it, the hint included, fills a block. -/
def LocalityFieldLocator.Frees (redisKey hint field : Bytes) : Prop :=
  512 ≤ (appendEscapedString (localityPrefix .kData redisKey) hint).length ∧ field = []

instance (redisKey hint field : Bytes) :
    Decidable (LocalityFieldLocator.Frees redisKey hint field) :=
  inferInstanceAs (Decidable (_ ∧ _))

theorem LocalityFieldLocator.ofField_eq {k h f : Bytes} (hk : k ≠ []) (hh : h ≠ [])
    (hn : ¬ LocalityFieldLocator.Frees k h f) :
    ∃ heapBuffer, LocalityFieldLocator.ofField k h f = .ok
      { keyPrefixSize := (localityPrefix .kData k).length,
        localityPrefixSize := (appendEscapedString (localityPrefix .kData k) h).length,
        keyBuffer := appendEscapedString (localityPrefix .kData k) h ++ f, heapBuffer } := by
  have hsize : ((appendEscapedString (localityPrefix .kData k) h).length != 0) = true := by
    simpa using appendEscapedString_length_ne_zero (localityPrefix .kData k) h
  obtain ⟨block, hb⟩ : ∃ block, expandBlock
      (if 512 ≤ (appendEscapedString (localityPrefix .kData k) h).length then
        some (appendEscapedString (localityPrefix .kData k) h).length else none)
      (appendEscapedString (localityPrefix .kData k) h).length
      ((appendEscapedString (localityPrefix .kData k) h).length + f.length) = .ok block := by
    apply exists_expandBlock
    by_cases hf : f = []
    · exact .inr (if_neg fun hbig => hn ⟨hbig, hf⟩)
    · exact .inl (Nat.lt_add_of_pos_right (List.length_pos_of_ne_nil hf))
  refine ⟨block, ?_⟩
  unfold LocalityFieldLocator.ofField LocalityFieldLocator.resetField
  rw [LocalityFieldLocator.ofHint_eq hk hh]
  dsimp only [bind, Except.bind]
  rw [hsize, hb, List.take_length]
  rfl

theorem LocalityFieldLocator.ofField_frees {k h f : Bytes} (hk : k ≠ []) (hh : h ≠ [])
    (hfrees : LocalityFieldLocator.Frees k h f) :
    LocalityFieldLocator.ofField k h f = .error .outOfBounds := by
  obtain ⟨hbig, rfl⟩ := hfrees
  have hsize : ((appendEscapedString (localityPrefix .kData k) h).length != 0) = true := by
    simpa using appendEscapedString_length_ne_zero (localityPrefix .kData k) h
  unfold LocalityFieldLocator.ofField LocalityFieldLocator.resetField
  rw [LocalityFieldLocator.ofHint_eq hk hh, if_pos hbig]
  dsimp only [bind, Except.bind]
  rw [hsize, List.length_nil, expandBlock_full]
  rfl

theorem LocalityFieldLocator.ofField_ok {k h f : Bytes} {l : LocalityFieldLocator} (hk : k ≠ [])
    (hh : h ≠ []) (hl : LocalityFieldLocator.ofField k h f = .ok l) :
    ¬ LocalityFieldLocator.Frees k h f ∧ l.keyPrefixSize = (localityPrefix .kData k).length ∧
      l.keyBuffer = appendEscapedString (localityPrefix .kData k) h ++ f := by
  by_cases hn : LocalityFieldLocator.Frees k h f
  · rw [LocalityFieldLocator.ofField_frees hk hh hn] at hl
    cases hl
  · obtain ⟨block, hb⟩ := LocalityFieldLocator.ofField_eq hk hh hn
    rw [hb] at hl
    cases hl
    exact ⟨hn, rfl, rfl⟩

theorem LocalityIndexLocator.resetKey_eq {k : Bytes} (hk : k ≠ []) :
    LocalityIndexLocator.resetKey k = .ok
      { keyPrefixSize := (localityPrefix .kIndex k).length,
        keyBuffer := localityPrefix .kIndex k } := by
  have hb : k.isEmpty = false := by simpa using hk
  simp [LocalityIndexLocator.resetKey, hb, localityPrefix, bind, Except.bind, pure, Except.pure]

theorem LocalityIndexLocator.ofField_eq {k f : Bytes} (hk : k ≠ []) (hf : f ≠ []) :
    LocalityIndexLocator.ofField k f = .ok
      { keyPrefixSize := (localityPrefix .kIndex k).length,
        keyBuffer := localityPrefix .kIndex k ++ f } := by
  have hb : f.isEmpty = false := by simpa using hf
  simp [LocalityIndexLocator.ofField, LocalityIndexLocator.resetKey_eq hk,
    LocalityIndexLocator.resetField, hb, bind, Except.bind, pure, Except.pure]

/-- An empty name never becomes a locator of a locality hash. -/
theorem LocalityIndexLocator.ofField_ok {k f : Bytes} {l : LocalityIndexLocator}
    (h : LocalityIndexLocator.ofField k f = .ok l) : k ≠ [] ∧ f ≠ [] := by
  constructor
  · rintro rfl
    cases h
  · rintro rfl
    by_cases hk : k = []
    · subst hk; cases h
    · simp [LocalityIndexLocator.ofField, LocalityIndexLocator.resetKey_eq hk,
        LocalityIndexLocator.resetField, bind, Except.bind] at h

/-! ## When two encodings meet -/

/-- The name `n` reads as the name `m` in front of `rest`: both are the same up
to their last byte, which is '|' in one and '#' in the other. -/
def ReadsAs (n m rest : Bytes) : Prop :=
  ∃ stem, (n = stem ++ [bar] ∧ m = stem ++ [hash]) ∨
    (n = stem ++ [hash] ∧ m = stem ++ [bar] ∧ rest.head? = some hash)

theorem not_ReadsAs_self (n rest : Bytes) : ¬ ReadsAs n n rest := by
  rintro ⟨stem, ⟨h1, h2⟩ | ⟨h1, h2, -⟩⟩ <;>
  · rw [h1] at h2
    have := List.append_cancel_left h2
    exact absurd this (by decide)

theorem ReadsAs_cons {c : UInt8} {n m rest : Bytes} :
    ReadsAs (c :: n) (c :: m) rest ↔ ReadsAs n m rest := by
  constructor
  · rintro ⟨stem, h⟩
    cases stem with
    | nil =>
      have hb := bar_ne_hash
      simp only [List.nil_append, List.cons.injEq] at h
      rcases h with ⟨⟨rfl, -⟩, h, -⟩ | ⟨⟨rfl, -⟩, ⟨h, -⟩, -⟩
      · exact absurd h hb
      · exact absurd h.symm hb
    | cons d stem =>
      simp only [List.cons_append, List.cons.injEq] at h
      exact ⟨stem, by tauto⟩
  · rintro ⟨stem, h⟩
    exact ⟨c :: stem, by simpa using h⟩

theorem ReadsAs_cons_of_ne {c d : UInt8} {n m rest : Bytes} (hcd : c ≠ d) :
    ReadsAs (c :: n) (d :: m) rest ↔
      n = [] ∧ m = [] ∧ (c = bar ∧ d = hash ∨ c = hash ∧ d = bar ∧ rest.head? = some hash) := by
  constructor
  · rintro ⟨stem, h⟩
    cases stem with
    | nil => simp only [List.nil_append, List.cons.injEq] at h; tauto
    | cons e stem =>
      simp only [List.cons_append, List.cons.injEq] at h
      rcases h with ⟨⟨rfl, -⟩, h, -⟩ | ⟨⟨rfl, -⟩, ⟨h, -⟩, -⟩
      · exact absurd h.symm hcd
      · exact absurd h.symm hcd
  · rintro ⟨rfl, rfl, h⟩
    exact ⟨[], by simpa using h⟩

@[simp] theorem escapeHashes_nil : escapeHashes [] = [] := rfl

@[simp] theorem escapeHashes_hash (n : Bytes) :
    escapeHashes (hash :: n) = bar :: hash :: escapeHashes n := by
  simp [escapeHashes]

@[simp] theorem escapeHashes_of_ne {c : UInt8} (hc : c ≠ hash) (n : Bytes) :
    escapeHashes (c :: n) = c :: escapeHashes n := by
  simp [escapeHashes, hc]

theorem escapeHashes_append (n m : Bytes) :
    escapeHashes (n ++ m) = escapeHashes n ++ escapeHashes m := by
  induction n with
  | nil => rfl
  | cons c n ih =>
    by_cases hc : c = hash
    · subst hc; simp [ih]
    · simp [hc, ih]

/-- An escaped name never starts with '#', so the end of a name is not read
where a name goes on. -/
theorem not_hash_prefix_escapeHashes {n r s : Bytes} (hn : n ≠ []) :
    ¬ hash :: s <+: escapeHashes n ++ r := by
  cases n with
  | nil => exact absurd rfl hn
  | cons c n =>
    by_cases hc : c = hash
    · subst hc; simp [List.cons_prefix_cons, bar_ne_hash.symm]
    · simp [hc, List.cons_prefix_cons, Ne.symm hc]

theorem not_escapeHashes_prefix_hash {n r s : Bytes} (hn : n ≠ []) :
    ¬ escapeHashes n ++ r <+: hash :: s := by
  cases n with
  | nil => exact absurd rfl hn
  | cons c n =>
    by_cases hc : c = hash
    · subst hc; simp [List.cons_prefix_cons, bar_ne_hash]
    · simp [hc, List.cons_prefix_cons]

/-- A '#' against another byte: only the '|' of its escape can match, and then
both names end there. -/
theorem hash_prefix_iff {d : UInt8} (hd : d ≠ hash) (n m rest : Bytes) :
    escapeHashes (hash :: n) ++ [hash, hash] <+: escapeHashes (d :: m) ++ (hash :: hash :: rest) ↔
      n = [] ∧ m = [] ∧ d = bar ∧ rest.head? = some hash := by
  rw [escapeHashes_hash, escapeHashes_of_ne hd]
  cases m with
  | cons e m =>
    have := not_hash_prefix_escapeHashes (s := escapeHashes n ++ [hash, hash])
      (r := hash :: hash :: rest) (List.cons_ne_nil e m)
    simp [List.cons_prefix_cons, this]
  | nil =>
    cases n with
    | cons e n =>
      have := not_escapeHashes_prefix_hash (s := rest) (r := [hash, hash])
        (List.cons_ne_nil e n)
      simp [List.cons_prefix_cons, this]
    | nil =>
      cases rest with
      | nil => simp [List.cons_prefix_cons]
      | cons e rest => simp [List.cons_prefix_cons, eq_comm]

/-- Another byte against a '#': the same, from the other side. -/
theorem prefix_hash_iff {c : UInt8} (hc : c ≠ hash) (n m rest : Bytes) :
    escapeHashes (c :: n) ++ [hash, hash] <+: escapeHashes (hash :: m) ++ (hash :: hash :: rest) ↔
      n = [] ∧ m = [] ∧ c = bar := by
  rw [escapeHashes_hash, escapeHashes_of_ne hc]
  cases n with
  | cons e n =>
    have := not_escapeHashes_prefix_hash (s := escapeHashes m ++ hash :: hash :: rest)
      (r := [hash, hash]) (List.cons_ne_nil e n)
    simp [List.cons_prefix_cons, this]
  | nil =>
    cases m with
    | cons e m =>
      have := not_hash_prefix_escapeHashes (s := []) (r := hash :: hash :: rest)
        (List.cons_ne_nil e m)
      simp [List.cons_prefix_cons, this]
    | nil => simp [List.cons_prefix_cons]

/-- The escaped name `n` and its end stand in front of the escaped name `m`, its
end and `rest` exactly when the names are equal or `n` reads as `m`. -/
theorem escaped_prefix_iff (n m rest : Bytes) :
    escapeHashes n ++ [hash, hash] <+: escapeHashes m ++ (hash :: hash :: rest) ↔
      n = m ∨ ReadsAs n m rest := by
  induction n generalizing m with
  | nil =>
    cases m with
    | nil => simp
    | cons d m =>
      have := not_hash_prefix_escapeHashes (s := [hash]) (r := hash :: hash :: rest)
        (List.cons_ne_nil d m)
      simp [ReadsAs, this]
  | cons c n ih =>
    cases m with
    | nil =>
      have := not_escapeHashes_prefix_hash (s := hash :: rest) (r := [hash, hash])
        (List.cons_ne_nil c n)
      simp [ReadsAs, this]
    | cons d m =>
      by_cases hcd : c = d
      · -- Equal bytes are escaped alike, and the rest decides.
        subst hcd
        rw [ReadsAs_cons, List.cons.injEq]
        by_cases hc : c = hash
        · subst hc; simpa [List.cons_prefix_cons] using ih m
        · simpa [hc, List.cons_prefix_cons] using ih m
      · rw [ReadsAs_cons_of_ne hcd, List.cons.injEq]
        by_cases hc : c = hash
        · subst hc
          rw [hash_prefix_iff (Ne.symm hcd)]
          simp [hcd, bar_ne_hash.symm]
        · by_cases hd : d = hash
          · subst hd
            rw [prefix_hash_iff hc]
            simp [hc]
          · simp [hc, hd, hcd, List.cons_prefix_cons]

/-- A byte other than '#' after the end keeps the names apart. -/
theorem escaped_prefix_iff_of_mark {c d : UInt8} (hc : c ≠ hash) (hd : d ≠ hash)
    (n m s rest : Bytes) :
    escapeHashes n ++ (hash :: hash :: c :: s) <+: escapeHashes m ++ (hash :: hash :: d :: rest) ↔
      n = m ∧ c = d ∧ s <+: rest := by
  constructor
  · intro h
    have hp : escapeHashes n ++ [hash, hash] <+: escapeHashes m ++ (hash :: hash :: d :: rest) := by
      refine List.IsPrefix.trans ?_ h
      exact ⟨c :: s, by simp⟩
    rcases (escaped_prefix_iff n m (d :: rest)).mp hp with rfl | ⟨stem, ⟨rfl, rfl⟩ | ⟨-, -, hh⟩⟩
    · simpa [List.prefix_append_right_inj, List.cons_prefix_cons] using h
    · simp [escapeHashes_append, List.prefix_append_right_inj, List.cons_prefix_cons,
        bar_ne_hash, hc] at h
    · simp [hd] at hh
  · rintro ⟨rfl, rfl, hs⟩
    simpa [List.prefix_append_right_inj, List.cons_prefix_cons] using hs

/-! ## Keys apart -/

/-- What a read or a delete of one key relies on: its locators are there, no other
key and field has the same rocksdb key, and the prefix of the key covers no other
key's field. -/
def FieldKeysApart (t : KeyType) (k₁ f₁ k₂ f₂ : Bytes) : Prop :=
  ∃ p₁ l₁ l₂, FieldLocator.resetKey t k₁ = .ok p₁ ∧ FieldLocator.ofField t k₁ f₁ = .ok l₁ ∧
    FieldLocator.ofField t k₂ f₂ = .ok l₂ ∧
    (l₁.toView = l₂.toView → k₁ = k₂ ∧ f₁ = f₂) ∧ (p₁.getPrefix <+: l₂.toView → k₁ = k₂)

/-- The same for the data of a locality hash, where each hint has a prefix too. -/
def LocalityFieldKeysApart (k₁ h₁ f₁ k₂ h₂ f₂ : Bytes) : Prop :=
  ∃ p₁ q₁ l₁ l₂, LocalityFieldLocator.resetKey k₁ = .ok p₁ ∧
    LocalityFieldLocator.ofHint k₁ h₁ = .ok q₁ ∧
    LocalityFieldLocator.ofField k₁ h₁ f₁ = .ok l₁ ∧
    LocalityFieldLocator.ofField k₂ h₂ f₂ = .ok l₂ ∧
    (l₁.toView = l₂.toView → k₁ = k₂ ∧ h₁ = h₂ ∧ f₁ = f₂) ∧
    (p₁.toView <+: l₂.toView → k₁ = k₂) ∧
    (q₁.toView <+: l₂.toView → k₁ = k₂ ∧ h₁ = h₂)

/-- The same for the index of a locality hash. -/
def LocalityIndexKeysApart (k₁ f₁ k₂ f₂ : Bytes) : Prop :=
  ∀ p₁ l₁ l₂, LocalityIndexLocator.resetKey k₁ = .ok p₁ →
    LocalityIndexLocator.ofField k₁ f₁ = .ok l₁ → LocalityIndexLocator.ofField k₂ f₂ = .ok l₂ →
    (l₁.toView = l₂.toView → k₁ = k₂ ∧ f₁ = f₂) ∧ (p₁.toView <+: l₂.toView → k₁ = k₂)

theorem fieldKeysApart_iff {t : KeyType} (ht : t.bearsFields = true) (k₁ f₁ k₂ f₂ : Bytes) :
    FieldKeysApart t k₁ f₁ k₂ f₂ ↔
      ¬ ReadsAs k₁ k₂ f₂ ∧ ¬ FieldLocator.Frees t k₁ f₁ ∧ ¬ FieldLocator.Frees t k₂ f₂ := by
  have hp : appendEscapedString [t.toChar] k₁ <+: appendEscapedString [t.toChar] k₂ ++ f₂ ↔
      k₁ = k₂ ∨ ReadsAs k₁ k₂ f₂ := by
    rw [← escaped_prefix_iff]
    simp [appendEscapedString, List.cons_prefix_cons]
  constructor
  · rintro ⟨p₁, l₁, l₂, hp₁, hl₁, hl₂, -, h⟩
    obtain ⟨hn₁, -, -⟩ := FieldLocator.ofField_ok ht hl₁
    obtain ⟨hn₂, -, hv₂⟩ := FieldLocator.ofField_ok ht hl₂
    refine ⟨fun hr => ?_, hn₁, hn₂⟩
    rw [FieldLocator.resetKey_eq ht, Except.ok.injEq] at hp₁
    subst hp₁
    simp only [FieldLocator.getPrefix, FieldLocator.toView, List.take_length, hv₂] at h
    obtain rfl := h (hp.mpr (.inr hr))
    exact not_ReadsAs_self _ _ hr
  · rintro ⟨hr, hn₁, hn₂⟩
    obtain ⟨block₁, hl₁⟩ := FieldLocator.ofField_eq ht hn₁
    obtain ⟨block₂, hl₂⟩ := FieldLocator.ofField_eq ht hn₂
    have hk : appendEscapedString [t.toChar] k₁ <+: appendEscapedString [t.toChar] k₂ ++ f₂ →
        k₁ = k₂ := fun h => (hp.mp h).resolve_right hr
    refine ⟨_, _, _, FieldLocator.resetKey_eq ht k₁, hl₁, hl₂, fun h => ?_, fun h => ?_⟩
    · obtain rfl := hk ⟨f₁, h⟩
      exact ⟨rfl, List.append_cancel_left h⟩
    · rw [FieldLocator.getPrefix, List.take_length] at h
      exact hk h

theorem localityPrefix_append (kind : InternalLocalityFieldType) (k rest : Bytes) :
    localityPrefix kind k ++ rest =
      KeyType.kLocalityHash.toChar :: (escapeHashes k ++ (hash :: hash :: kind.toChar :: rest)) := by
  simp [localityPrefix, appendEscapedString]

/-- The prefix of a key of a locality hash stands only in front of its own data,
for the kind of entry after it is never '#'. -/
theorem localityPrefix_prefix_iff (kind : InternalLocalityFieldType) (k₁ k₂ s rest : Bytes) :
    localityPrefix kind k₁ ++ s <+: localityPrefix kind k₂ ++ rest ↔ k₁ = k₂ ∧ s <+: rest := by
  have hm : kind.toChar ≠ hash := by cases kind <;> decide
  rw [localityPrefix_append, localityPrefix_append, List.cons_prefix_cons,
    escaped_prefix_iff_of_mark hm hm]
  simp

theorem localityFieldKeysApart_iff {k₁ h₁ f₁ k₂ h₂ f₂ : Bytes} (hk₁ : k₁ ≠ []) (hk₂ : k₂ ≠ [])
    (hh₁ : h₁ ≠ []) (hh₂ : h₂ ≠ []) :
    LocalityFieldKeysApart k₁ h₁ f₁ k₂ h₂ f₂ ↔ ¬ (k₁ = k₂ ∧ ReadsAs h₁ h₂ f₂) ∧
      ¬ LocalityFieldLocator.Frees k₁ h₁ f₁ ∧ ¬ LocalityFieldLocator.Frees k₂ h₂ f₂ := by
  have hp : appendEscapedString (localityPrefix .kData k₁) h₁ <+:
      appendEscapedString (localityPrefix .kData k₂) h₂ ++ f₂ ↔
      k₁ = k₂ ∧ (h₁ = h₂ ∨ ReadsAs h₁ h₂ f₂) := by
    rw [← escaped_prefix_iff, ← localityPrefix_prefix_iff .kData]
    simp [appendEscapedString]
  constructor
  · rintro ⟨p₁, q₁, l₁, l₂, -, hq₁, hl₁, hl₂, -, -, h⟩
    obtain ⟨hn₁, -, -⟩ := LocalityFieldLocator.ofField_ok hk₁ hh₁ hl₁
    obtain ⟨hn₂, -, hv₂⟩ := LocalityFieldLocator.ofField_ok hk₂ hh₂ hl₂
    refine ⟨?_, hn₁, hn₂⟩
    rintro ⟨rfl, hr⟩
    rw [LocalityFieldLocator.ofHint_eq hk₁ hh₁, Except.ok.injEq] at hq₁
    subst hq₁
    simp only [LocalityFieldLocator.toView, hv₂] at h
    obtain ⟨-, rfl⟩ := h (hp.mpr ⟨rfl, .inr hr⟩)
    exact not_ReadsAs_self _ _ hr
  · rintro ⟨hr, hn₁, hn₂⟩
    obtain ⟨block₁, hl₁⟩ := LocalityFieldLocator.ofField_eq hk₁ hh₁ hn₁
    obtain ⟨block₂, hl₂⟩ := LocalityFieldLocator.ofField_eq hk₂ hh₂ hn₂
    have hq : appendEscapedString (localityPrefix .kData k₁) h₁ <+:
        appendEscapedString (localityPrefix .kData k₂) h₂ ++ f₂ → k₁ = k₂ ∧ h₁ = h₂ := by
      intro h
      obtain ⟨hk, hh⟩ := hp.mp h
      exact ⟨hk, hh.resolve_right fun h' => hr ⟨hk, h'⟩⟩
    refine ⟨_, _, _, _, LocalityFieldLocator.resetKey_eq hk₁,
      LocalityFieldLocator.ofHint_eq hk₁ hh₁, hl₁, hl₂, fun h => ?_, fun h => ?_, hq⟩
    · obtain ⟨rfl, rfl⟩ := hq ⟨f₁, h⟩
      exact ⟨rfl, rfl, List.append_cancel_left h⟩
    · have h' : localityPrefix .kData k₁ ++ [] <+:
          localityPrefix .kData k₂ ++ (escapeHashes h₂ ++ [hash, hash] ++ f₂) := by
        simpa [appendEscapedString, LocalityFieldLocator.toView] using h
      exact ((localityPrefix_prefix_iff _ _ _ _ _).mp h').1

theorem localityIndexKeysApart (k₁ f₁ k₂ f₂ : Bytes) : LocalityIndexKeysApart k₁ f₁ k₂ f₂ := by
  intro p₁ l₁ l₂ hp h₁ h₂
  obtain ⟨hk₁, hf₁⟩ := LocalityIndexLocator.ofField_ok h₁
  obtain ⟨hk₂, hf₂⟩ := LocalityIndexLocator.ofField_ok h₂
  rw [LocalityIndexLocator.resetKey_eq hk₁, Except.ok.injEq] at hp
  rw [LocalityIndexLocator.ofField_eq hk₁ hf₁, Except.ok.injEq] at h₁
  rw [LocalityIndexLocator.ofField_eq hk₂ hf₂, Except.ok.injEq] at h₂
  subst hp h₁ h₂
  have hk : localityPrefix .kIndex k₁ <+: localityPrefix .kIndex k₂ ++ f₂ → k₁ = k₂ := by
    intro h
    rw [← List.append_nil (localityPrefix .kIndex k₁)] at h
    exact ((localityPrefix_prefix_iff _ _ _ _ _).mp h).1
  refine ⟨fun h => ?_, hk⟩
  obtain rfl := hk ⟨f₁, h⟩
  exact ⟨rfl, List.append_cancel_left h⟩

/-- Two fields of a hash, a set, a deque or a versioned hash stay apart exactly
when no key reads as the other, two fields of a locality hash exactly when no
hint of the one key reads as the other, provided that no field is empty behind a
prefix that fills a block; and two index entries always. -/
theorem storage_keys_stay_apart_unless_a_bar_reads_as_a_hash
    {t : KeyType} (ht : t.bearsFields = true) {k₁ k₂ : Bytes} (hk₁ : k₁ ≠ []) (hk₂ : k₂ ≠ [])
    {h₁ h₂ : Bytes} (hh₁ : h₁ ≠ []) (hh₂ : h₂ ≠ []) (f₁ f₂ : Bytes) :
    (FieldKeysApart t k₁ f₁ k₂ f₂ ↔
      ¬ ReadsAs k₁ k₂ f₂ ∧ ¬ FieldLocator.Frees t k₁ f₁ ∧ ¬ FieldLocator.Frees t k₂ f₂) ∧
    (LocalityFieldKeysApart k₁ h₁ f₁ k₂ h₂ f₂ ↔ ¬ (k₁ = k₂ ∧ ReadsAs h₁ h₂ f₂) ∧
      ¬ LocalityFieldLocator.Frees k₁ h₁ f₁ ∧ ¬ LocalityFieldLocator.Frees k₂ h₂ f₂) ∧
    LocalityIndexKeysApart k₁ f₁ k₂ f₂ :=
  ⟨fieldKeysApart_iff ht k₁ f₁ k₂ f₂, localityFieldKeysApart_iff hk₁ hk₂ hh₁ hh₂,
    localityIndexKeysApart k₁ f₁ k₂ f₂⟩

/-- The hashes "k1" and "k2" share nothing, nor do the hints "h1" and "h2". -/
theorem plain_storage_keys_stay_apart :
    FieldKeysApart .kHash (ascii "k1") (ascii "f") (ascii "k2") (ascii "f") ∧
    LocalityFieldKeysApart (ascii "k1") (ascii "h1") (ascii "f") (ascii "k2") (ascii "h2")
      (ascii "f") := by
  have hr : ¬ ReadsAs (ascii "k1") (ascii "k2") (ascii "f") := by
    show ¬ ReadsAs [107, 49] [107, 50] [102]
    rw [ReadsAs_cons, ReadsAs_cons_of_ne (by decide)]
    decide
  have hk₁ : ascii "k1" ≠ [] := by decide
  have hk₂ : ascii "k2" ≠ [] := by decide
  have hh₁ : ascii "h1" ≠ [] := by decide
  have hh₂ : ascii "h2" ≠ [] := by decide
  have h := storage_keys_stay_apart_unless_a_bar_reads_as_a_hash (t := .kHash) (by decide) hk₁ hk₂
    hh₁ hh₂ (ascii "f") (ascii "f")
  exact ⟨h.1.mpr ⟨hr, by decide, by decide⟩,
    h.2.1.mpr ⟨fun hk => absurd hk.1 (by decide), by decide, by decide⟩⟩

/-- Field "#x" of the hash "a|" and field "x" of the hash "a#" are one rocksdb key. And a
hash with a name of 510 bytes has no locator for the empty field. -/
theorem a_hash_that_ends_in_a_bar_shares_a_key :
    ascii "a|" ≠ [] ∧ ascii "a#" ≠ [] ∧
    (FieldLocator.ofField .kHash (ascii "a|") (ascii "#x")).map FieldLocator.toView =
      (FieldLocator.ofField .kHash (ascii "a#") (ascii "x")).map FieldLocator.toView ∧
    ¬ FieldKeysApart .kHash (ascii "a|") (ascii "#x") (ascii "a#") (ascii "x") ∧
    ¬ FieldKeysApart .kHash (List.replicate 510 97) [] (ascii "k") (ascii "f") := by
  refine ⟨by decide, by decide, by decide, ?_, ?_⟩
  · rintro ⟨p₁, l₁, l₂, -, hl₁, hl₂, h, -⟩
    cases hl₁
    cases hl₂
    exact absurd (h (by decide)) (by decide)
  · rw [fieldKeysApart_iff rfl]
    rintro ⟨-, hn, -⟩
    refine hn ⟨?_, rfl⟩
    rw [length_appendEscapedString, List.length_replicate, List.length_singleton]
    omega

end quarkdb
