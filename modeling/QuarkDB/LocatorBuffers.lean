-- Key locators as they are written into their buffers: a prefix is followed by a field, unless the
-- field is empty and the prefix fills a block. The locators that keep the size of the block only
-- say the same.
import QuarkDB.Contents
import QuarkDB.SmartBuffers

namespace quarkdb

open Memory SmartBuffer

/-- `KeyBuffer`, with the heap. -/
abbrev KeyBuffer := SmartBuffer.State 512

namespace KeyBuffer

/-- `keyBuffer[i] = c`. -/
def put (i : Nat) (c : UInt8) : Call KeyBuffer Unit := do write (← data) i [some c]

/-- `memcpy(keyBuffer.data() + offset, bytes.data(), bytes.size())`. -/
def memcpy (offset : Nat) (bytes : Bytes) : Call KeyBuffer Unit := do
  write (← data) offset (bytes.map some)

/-- The loop of `appendEscapedString`. -/
def appendEscaped : Bytes → Nat → Call KeyBuffer Nat
  | [], targetIndex => return targetIndex
  | c :: rest, targetIndex =>
    if c ≠ hash then do
      put targetIndex c
      appendEscaped rest (targetIndex + 1)
    else do
      put targetIndex bar
      put (targetIndex + 1) hash
      appendEscaped rest (targetIndex + 2)

def appendEscapedString (targetIndex : Nat) (str : Bytes) : Call KeyBuffer Nat := do
  let targetIndex ← appendEscaped str targetIndex
  put targetIndex hash
  put (targetIndex + 1) hash
  return targetIndex + 2

/-! ## Locators -/

/-- `reset` of the locators of one character and a name. -/
def reset (mark : UInt8) (name : Bytes) : Call KeyBuffer Unit := do
  resize (name.length + 1)
  put 0 mark
  memcpy 1 name

def DescriptorLocator (redisKey : Bytes) : Call KeyBuffer Unit := reset 33 redisKey

def StringLocator (redisKey : Bytes) : Call KeyBuffer Unit := reset KeyType.kString.toChar redisKey

def LeaseLocator (redisKey : Bytes) : Call KeyBuffer Unit := reset KeyType.kLease.toChar redisKey

def ConfigurationLocator (key : Bytes) : Call KeyBuffer Unit := reset 126 key

def ExpirationEventLocator (deadline : UInt64) (redisKey : Bytes) : Call KeyBuffer Unit := do
  resize (1 + 8 + redisKey.length)
  put 0 64
  memcpy 1 (unsignedIntToBinaryString deadline)
  memcpy 9 redisKey

/-- What the locators do with a field, behind a prefix of so many bytes. -/
def follow (prefixSize : Nat) (field : Bytes) : Call KeyBuffer Unit := do
  shrink prefixSize
  expand (prefixSize + field.length)
  memcpy prefixSize field

namespace FieldLocator

/-- The result is `keyPrefixSize`. -/
def resetKey (keyType : KeyType) (redisKey : Bytes) : Call KeyBuffer Nat := do
  liftM (qdbAssert keyType.bearsFields "keyType is one of kHash, kSet, kDeque, kVersionedHash")
  resize (1 + redisKey.length + redisKey.count hash + 2)
  put 0 keyType.toChar
  appendEscapedString 1 redisKey

def resetField (keyPrefixSize : Nat) (field : Bytes) : Call KeyBuffer Unit :=
  follow keyPrefixSize field

/-- The constructor from a key and a field. -/
def ofField (keyType : KeyType) (redisKey field : Bytes) : Call KeyBuffer Unit := do
  let keyPrefixSize ← resetKey keyType redisKey
  resetField keyPrefixSize field

end FieldLocator

/-- `resetKey` of the locators of a locality hash. The result is `keyPrefixSize`. -/
def resetLocalityKey (kind : InternalLocalityFieldType) (redisKey : Bytes) : Call KeyBuffer Nat := do
  liftM (qdbAssert (!redisKey.isEmpty) "!redisKey.empty()")
  resize (2 + redisKey.length + redisKey.count hash + 2)
  put 0 KeyType.kLocalityHash.toChar
  let keyPrefixSize ← appendEscapedString 1 redisKey
  put keyPrefixSize kind.toChar
  return keyPrefixSize + 1

namespace LocalityFieldLocator

def resetKey (redisKey : Bytes) : Call KeyBuffer Nat := resetLocalityKey .kData redisKey

/-- The result is `localityPrefixSize`. -/
def resetHint (keyPrefixSize : Nat) (hint : Bytes) : Call KeyBuffer Nat := do
  liftM (qdbAssert (!hint.isEmpty) "!hint.empty()")
  liftM (qdbAssert (keyPrefixSize != 0) "keyPrefixSize != 0")
  shrink keyPrefixSize
  expand (keyPrefixSize + hint.length + hint.count hash + 2)
  appendEscapedString keyPrefixSize hint

def resetField (localityPrefixSize : Nat) (field : Bytes) : Call KeyBuffer Unit := do
  liftM (qdbAssert (localityPrefixSize != 0) "localityPrefixSize != 0")
  follow localityPrefixSize field

/-- The constructor from a key and a hint. -/
def ofHint (redisKey hint : Bytes) : Call KeyBuffer Nat := do
  let keyPrefixSize ← resetKey redisKey
  resetHint keyPrefixSize hint

/-- The constructor from a key, a hint and a field. -/
def ofField (redisKey hint field : Bytes) : Call KeyBuffer Unit := do
  let localityPrefixSize ← ofHint redisKey hint
  resetField localityPrefixSize field

end LocalityFieldLocator

namespace LocalityIndexLocator

def resetKey (redisKey : Bytes) : Call KeyBuffer Nat := resetLocalityKey .kIndex redisKey

def resetField (keyPrefixSize : Nat) (field : Bytes) : Call KeyBuffer Unit := do
  liftM (qdbAssert (!field.isEmpty) "!field.empty()")
  follow keyPrefixSize field

/-- The constructor from a key and a field. -/
def ofField (redisKey field : Bytes) : Call KeyBuffer Unit := do
  let keyPrefixSize ← resetKey redisKey
  resetField keyPrefixSize field

end LocalityIndexLocator

/-- What the view of a new locator is. -/
def viewOf {α : Type} (locator : Call KeyBuffer α) (heap : Heap UInt8) :
    Except Fault (List (Option UInt8)) :=
  ((do let _ ← locator; toView).on (State.fresh heap)).1

/-! ## Writing into a buffer -/

/-- The bytes in use begin so. -/
structure Spells (base : Heap UInt8) (s : KeyBuffer) (p : Bytes) : Prop where
  fits : p.length ≤ s.buffer.realSize
  backed : ∃ bytes, Backed base s bytes ∧ bytes.take p.length = p.map some

/-- A call returns, and leaves a buffer that is where it was and begins so. -/
def Writes {α : Type} (base : Heap UInt8) (s : KeyBuffer) (call : Call KeyBuffer α) (a : α)
    (p : Bytes) : Prop :=
  ∃ s', call.on s = (.ok a, s') ∧ Spells base s' p ∧ Alike s s'

section

variable {base : Heap UInt8} {s : KeyBuffer} {p q : Bytes} {c : UInt8} {i : Nat}

theorem Writes.bind {α β : Type} {call : Call KeyBuffer α} {next : α → Call KeyBuffer β} {a : α}
    {b : β} (h : Writes base s call a p)
    (hnext : ∀ s', Spells base s' p → Alike s s' → Writes base s' (next a) b q) :
    Writes base s (call >>= next) b q := by
  obtain ⟨s1, hs1, hp, halike⟩ := h
  obtain ⟨s2, hs2, hq, halike'⟩ := hnext s1 hp halike
  refine ⟨s2, ?_, hq, halike.trans halike'⟩
  rw [Call.on_bind, hs1]
  exact hs2

theorem Writes.pure {α : Type} {a : α} (h : Spells base s p) :
    Writes base s (Pure.pure a) a p := ⟨s, rfl, h, rfl, rfl, rfl⟩

theorem Spells.memcpy (h : Spells base s p) (hi : i = p.length)
    (hfits : (p ++ q).length ≤ s.buffer.realSize) :
    Writes base s (KeyBuffer.memcpy i q) () (p ++ q) := by
  obtain ⟨bytes, hb, htake⟩ := h.backed
  have hsize := hb.fits
  have hlen := @List.length_append _ p q
  obtain ⟨s', hs', hb', halike⟩ := hb.on_write i (q.map some) (by rw [List.length_map]; omega)
  refine ⟨s', ?_, ⟨?_, _, hb', ?_⟩, halike⟩
  · unfold KeyBuffer.memcpy
    rw [Call.on_bind, on_data]
    exact hs'
  · rw [halike.realSize]
    exact hfits
  · rw [hi, take_patch htake (List.length_map ..) (by rw [List.length_map, hlen]), List.map_append]

theorem Spells.put (h : Spells base s p) (hi : i = p.length)
    (hfits : (p ++ [c]).length ≤ s.buffer.realSize) :
    Writes base s (KeyBuffer.put i c) () (p ++ [c]) := by
  have hput : KeyBuffer.put i c = KeyBuffer.memcpy i [c] := rfl
  rw [hput]
  exact h.memcpy hi hfits

/-- The loop, by induction on what is escaped. -/
theorem Spells.appendEscaped (h : Spells base s p) (hi : i = p.length) (str : Bytes)
    (hfits : (p ++ escapeHashes str).length ≤ s.buffer.realSize) :
    Writes base s (KeyBuffer.appendEscaped str i) (p ++ escapeHashes str).length
      (p ++ escapeHashes str) := by
  induction str generalizing p s i with
  | nil =>
    rw [escapeHashes, List.append_nil, ← hi]
    exact Writes.pure h
  | cons c rest ih =>
    unfold KeyBuffer.appendEscaped escapeHashes
    unfold escapeHashes at hfits
    by_cases hc : c = hash
    · rw [if_neg (not_not.mpr hc)] at hfits ⊢
      rw [if_neg (not_not.mpr hc), List.append_cons, List.append_cons]
      rw [List.append_cons, List.append_cons] at hfits
      have hlen := @List.length_append _ (p ++ [bar] ++ [hash]) (escapeHashes rest)
      have hlen' := @List.length_append _ (p ++ [bar]) [hash]
      have hlen'' := @List.length_append _ p [bar]
      refine (h.put hi (by omega)).bind fun s1 h1 ha1 => ?_
      refine (h1.put (by rw [hlen'', hi]; rfl) (by rw [ha1.realSize]; omega)).bind
        fun s2 h2 ha2 => ?_
      exact ih h2 (by rw [hlen', hlen'', hi]; rfl) (by rw [ha2.realSize, ha1.realSize]; exact hfits)
    · rw [if_pos hc] at hfits ⊢
      rw [if_pos hc, List.append_cons]
      rw [List.append_cons] at hfits
      have hlen := @List.length_append _ (p ++ [c]) (escapeHashes rest)
      have hlen' := @List.length_append _ p [c]
      refine (h.put hi (by omega)).bind fun s1 h1 ha1 => ?_
      exact ih h1 (by rw [hlen', hi]; rfl) (by rw [ha1.realSize]; exact hfits)

theorem Spells.appendEscapedString (h : Spells base s p) (hi : i = p.length) (str : Bytes)
    (hfits : (quarkdb.appendEscapedString p str).length ≤ s.buffer.realSize) :
    Writes base s (KeyBuffer.appendEscapedString i str)
      (quarkdb.appendEscapedString p str).length (quarkdb.appendEscapedString p str) := by
  have hsplit : quarkdb.appendEscapedString p str = p ++ escapeHashes str ++ [hash] ++ [hash] := by
    unfold quarkdb.appendEscapedString
    simp only [List.append_assoc, List.cons_append, List.nil_append]
  rw [hsplit] at hfits ⊢
  have hlen := @List.length_append _ (p ++ escapeHashes str ++ [hash]) [hash]
  have hlen' := @List.length_append _ (p ++ escapeHashes str) [hash]
  unfold KeyBuffer.appendEscapedString
  refine (h.appendEscaped hi str (by omega)).bind fun s1 h1 ha1 => ?_
  refine (h1.put rfl (by rw [ha1.realSize]; omega)).bind fun s2 h2 ha2 => ?_
  refine (h2.put (by rw [hlen']; rfl) (by rw [ha2.realSize, ha1.realSize]; exact hfits)).bind
    fun s3 h3 ha3 => ?_
  have hend : (p ++ escapeHashes str).length + 2 =
      (p ++ escapeHashes str ++ [hash] ++ [hash]).length := by
    rw [hlen, hlen']
    rfl
  rw [hend]
  exact Writes.pure h3

/-! ## Where the bytes are -/

/-- All bytes in use are the last that were asked for, and they are in a block if they are big. -/
structure Filled (s : KeyBuffer) (big : Prop) (size : Nat) : Prop where
  realSize : s.buffer.realSize = size
  onHeap : s.buffer.heapBuffer.isSome ↔ big
  container : s.buffer.heapBuffer.isSome → s.buffer.containerSize = size

theorem Filled.alike {s' : KeyBuffer} {big : Prop} {size : Nat} (h : Filled s big size)
    (ha : Alike s s') : Filled s' big size where
  realSize := ha.realSize.trans h.realSize
  onHeap := by
    rw [ha.heapBuffer]
    exact h.onHeap
  container := by
    rw [ha.heapBuffer, ha.containerSize]
    exact h.container

theorem containerSize_of_none {s : KeyBuffer} (h : ¬ s.buffer.heapBuffer.isSome) :
    s.buffer.containerSize = 512 := by
  rw [Option.not_isSome_iff_eq_none] at h
  unfold SmartBuffer.containerSize
  rw [h]

theorem spells_nil {bytes : List (Option UInt8)} (h : Backed base s bytes) : Spells base s [] where
  fits := Nat.zero_le _
  backed := ⟨bytes, h, rfl⟩

/-- A new buffer of some size. -/
theorem on_resize_fresh (heap : Heap UInt8) (size : Nat) :
    ∃ s', (resize size).on (State.fresh heap : KeyBuffer) = (.ok (), s') ∧ Spells heap s' [] ∧
      Filled s' (512 < size) size := by
  obtain ⟨s', bytes', hs', hb, hr⟩ := (backed_fresh heap).on_resize size
  refine ⟨s', hs', spells_nil hb, hr.realSize, ?_, ?_⟩
  · by_cases hroom : size ≤ 512
    · rw [(hr.stays hroom).1]
      exact iff_of_false Bool.false_ne_true (Nat.not_lt.mpr hroom)
    · exact iff_of_true (hr.moves hroom).1 (Nat.lt_of_not_le hroom)
  · intro hsome
    by_cases hroom : size ≤ 512
    · rw [(hr.stays hroom).1] at hsome
      cases hsome
    · exact (hr.moves hroom).2

/-- There is room behind a prefix, unless that is all the buffer has and nothing is asked for. -/
theorem Spells.room (h : Spells base s p) (size : Nat) (hle : p.length ≤ size)
    (hn : ¬ ((s.buffer.heapBuffer.isSome ∧ s.buffer.containerSize = p.length) ∧
      size = p.length)) :
    ∃ s', (∀ (α : Type) (next : Call KeyBuffer α),
        (do shrink p.length; expand size; next).on s = next.on s') ∧
      Spells base s' p ∧ Resized s (size < s.buffer.containerSize ∨ size = p.length) size s' := by
  obtain ⟨bytes, hb, htake⟩ := h.backed
  have hfits := hb.fits
  have hp := h.fits
  obtain ⟨s', bytes', hs', hb', hr, htake'⟩ := (hb.resized (Nat.le_trans hp hfits)).on_expand hle hn
  refine ⟨s', fun α next => ?_, ⟨by rw [hr.realSize]; exact hle, bytes', hb', ?_⟩,
    hr.realSize, hr.stays, hr.moves⟩
  · rw [Call.on_bind, on_shrink hp]
    dsimp only
    rw [Call.on_bind, hs']
  · rw [← htake]
    exact htake'

/-! ## A prefix and a field -/

variable {big : Prop}

theorem Filled.full_iff (hf : Filled s big p.length) :
    (s.buffer.heapBuffer.isSome ∧ s.buffer.containerSize = p.length) ↔ big := by
  rw [← hf.onHeap]
  exact and_iff_left_of_imp hf.container

theorem Spells.follow (h : Spells base s p) (hf : Filled s big p.length) (hn : ¬ (big ∧ q = [])) :
    ∃ s', (KeyBuffer.follow p.length q).on s = (.ok (), s') ∧ Spells base s' (p ++ q) ∧
      s'.buffer.realSize = (p ++ q).length := by
  have hlen := @List.length_append _ p q
  obtain ⟨s1, hs1, h1, hr⟩ := h.room _ (Nat.le_add_right p.length q.length) (by
    rw [hf.full_iff, Nat.add_eq_left, List.length_eq_zero_iff]
    exact hn)
  obtain ⟨s2, hs2, h2, halike⟩ := h1.memcpy rfl (Nat.le_of_eq (hlen.trans hr.realSize.symm))
  refine ⟨s2, ?_, h2, ?_⟩
  · unfold KeyBuffer.follow
    rw [hs1 Unit]
    exact hs2
  · rw [halike.realSize, hr.realSize, hlen]

/-- The bytes of a full block are not there any more when nothing follows them. -/
theorem Spells.follow_full (h : Spells base s p) (hf : Filled s big p.length) (hbig : big) :
    ∃ s', (KeyBuffer.follow p.length []).on s = (.error .outOfBounds, s') := by
  obtain ⟨bytes, hb, -⟩ := h.backed
  have hp := h.fits
  have hle := Nat.le_trans hp hb.fits
  obtain ⟨s', hs', hdead⟩ := (hb.resized hle).on_expand_full (hf.full_iff.mpr hbig)
  refine ⟨s', ?_⟩
  unfold KeyBuffer.follow
  rw [Call.on_bind, on_shrink hp]
  dsimp only
  rw [Call.on_bind, List.length_nil, Nat.add_zero]
  dsimp only at hs'
  rw [hs']
  dsimp only
  unfold KeyBuffer.memcpy
  rw [Call.on_bind, on_data]
  exact on_write_dead hdead

theorem Spells.on_toView (h : Spells base s p) (hsize : s.buffer.realSize = p.length) :
    toView.on s = (.ok (p.map some), s) := by
  obtain ⟨bytes, hb, htake⟩ := h.backed
  rw [hb.on_toView, hsize, htake]

/-- What a locator says in the end. -/
theorem Spells.view_iff (h : Spells base s p) (hf : Filled s big p.length) :
    ((do KeyBuffer.follow p.length q; toView).on s).1 = .ok ((p ++ q).map some) ↔
      ¬ (big ∧ q = []) := by
  rw [Call.on_bind]
  constructor
  · rintro hview ⟨hbig, rfl⟩
    obtain ⟨s', hs'⟩ := h.follow_full hf hbig
    rw [hs'] at hview
    cases hview
  · intro hn
    obtain ⟨s', hs', h', hsize⟩ := h.follow hf hn
    rw [hs']
    dsimp only
    rw [h'.on_toView hsize]

theorem Spells.view_full (h : Spells base s p) (hf : Filled s big p.length) (hbig : big) :
    ((do KeyBuffer.follow p.length []; toView).on s).1 = .error .outOfBounds := by
  obtain ⟨s', hs'⟩ := h.follow_full hf hbig
  rw [Call.on_bind, hs']

/-! ## The locators -/

/-- The type and the key, at the beginning. -/
theorem Spells.begin (h : Spells base s []) (key : Bytes)
    (hfits : (quarkdb.appendEscapedString [c] key).length ≤ s.buffer.realSize) :
    Writes base s (do KeyBuffer.put 0 c; KeyBuffer.appendEscapedString 1 key)
      (quarkdb.appendEscapedString [c] key).length (quarkdb.appendEscapedString [c] key) := by
  have hlen := length_appendEscapedString [c] key
  rw [List.length_singleton] at hlen
  refine (h.put rfl ?_).bind fun s1 h1 ha1 => ?_
  · rw [List.nil_append, List.length_singleton]
    omega
  · exact h1.appendEscapedString rfl key (by rw [ha1.realSize]; exact hfits)

theorem on_resetKey (heap : Heap UInt8) {t : KeyType} (ht : t.bearsFields = true) (key : Bytes) :
    ∃ s', (FieldLocator.resetKey t key).on (State.fresh heap) =
        (.ok (quarkdb.appendEscapedString [t.toChar] key).length, s') ∧
      Spells heap s' (quarkdb.appendEscapedString [t.toChar] key) ∧
      Filled s' (512 < (quarkdb.appendEscapedString [t.toChar] key).length)
        (quarkdb.appendEscapedString [t.toChar] key).length := by
  have hlen : 1 + key.length + key.count hash + 2 =
      (quarkdb.appendEscapedString [t.toChar] key).length :=
    (length_appendEscapedString [t.toChar] key).symm
  obtain ⟨s1, hs1, h1, hf1⟩ := on_resize_fresh heap (1 + key.length + key.count hash + 2)
  rw [hlen] at hf1
  obtain ⟨s2, hs2, h2, ha2⟩ := h1.begin key (Nat.le_of_eq hf1.realSize.symm)
  refine ⟨s2, ?_, h2, hf1.alike ha2⟩
  unfold FieldLocator.resetKey
  rw [Call.on_bind, Call.on_lift, ht]
  dsimp only [qdbAssert_true]
  rw [Call.on_bind, hs1]
  exact hs2

theorem on_resetLocalityKey (heap : Heap UInt8) (kind : InternalLocalityFieldType) {key : Bytes}
    (hk : key ≠ []) :
    ∃ s', (resetLocalityKey kind key).on (State.fresh heap) =
        (.ok (localityPrefix kind key).length, s') ∧ Spells heap s' (localityPrefix kind key) ∧
      Filled s' (512 < (localityPrefix kind key).length) (localityPrefix kind key).length := by
  have hb : (!key.isEmpty) = true := by simpa using hk
  have hescaped := length_appendEscapedString [KeyType.kLocalityHash.toChar] key
  have hend : (localityPrefix kind key).length =
      (quarkdb.appendEscapedString [KeyType.kLocalityHash.toChar] key).length + 1 :=
    List.length_append
  rw [List.length_singleton] at hescaped
  obtain ⟨s1, hs1, h1, hf1⟩ := on_resize_fresh heap (2 + key.length + key.count hash + 2)
  rw [show 2 + key.length + key.count hash + 2 = (localityPrefix kind key).length by omega] at hf1
  have hwrites : Writes heap s1 (do
      KeyBuffer.put 0 KeyType.kLocalityHash.toChar
      let keyPrefixSize ← KeyBuffer.appendEscapedString 1 key
      KeyBuffer.put keyPrefixSize kind.toChar
      return keyPrefixSize + 1) (localityPrefix kind key).length (localityPrefix kind key) := by
    rw [← bind_assoc, hend]
    refine (h1.begin key (by rw [hf1.realSize]; omega)).bind fun s2 h2 ha2 => ?_
    refine (h2.put rfl (by rw [ha2.realSize, hf1.realSize]; rfl)).bind fun s3 h3 ha3 => ?_
    exact Writes.pure h3
  obtain ⟨s2, hs2, h2, ha2⟩ := hwrites
  refine ⟨s2, ?_, h2, hf1.alike ha2⟩
  unfold resetLocalityKey
  rw [Call.on_bind, Call.on_lift, hb]
  dsimp only [qdbAssert_true]
  rw [Call.on_bind, hs1]
  exact hs2

/-- A hint moves the bytes to a block as soon as they take up all that is inline. -/
theorem Spells.resetHint {hint : Bytes} (h : Spells base s p)
    (hf : Filled s (512 < p.length) p.length) (hp : p ≠ []) (hh : hint ≠ []) :
    ∃ s', (LocalityFieldLocator.resetHint p.length hint).on s =
        (.ok (quarkdb.appendEscapedString p hint).length, s') ∧
      Spells base s' (quarkdb.appendEscapedString p hint) ∧
      Filled s' (512 ≤ (quarkdb.appendEscapedString p hint).length)
        (quarkdb.appendEscapedString p hint).length := by
  have hhint : (!hint.isEmpty) = true := by simpa using hh
  have hprefix : (p.length != 0) = true := by simpa using hp
  have hlen := length_appendEscapedString p hint
  obtain ⟨s1, hs1, h1, hr⟩ :=
    h.room (p.length + hint.length + hint.count hash + 2) (by omega) (by omega)
  rw [← hlen] at hr
  have hf1 : Filled s1 (512 ≤ (quarkdb.appendEscapedString p hint).length)
      (quarkdb.appendEscapedString p hint).length := by
    by_cases hsome : s.buffer.heapBuffer.isSome
    · have hcontainer := hf.container hsome
      have hbig := hf.onHeap.mp hsome
      obtain ⟨hsome', hcontainer'⟩ := hr.moves (by omega)
      exact ⟨hr.realSize, iff_of_true hsome' (by omega), fun _ => hcontainer'⟩
    · have hcontainer := containerSize_of_none hsome
      by_cases hroom : 512 ≤ (quarkdb.appendEscapedString p hint).length
      · obtain ⟨hsome', hcontainer'⟩ := hr.moves (by omega)
        exact ⟨hr.realSize, iff_of_true hsome' hroom, fun _ => hcontainer'⟩
      · rw [← (hr.stays (by omega)).1] at hsome
        exact ⟨hr.realSize, iff_of_false hsome hroom, fun hsome' => absurd hsome' hsome⟩
  obtain ⟨s2, hs2, h2, ha2⟩ :=
    h1.appendEscapedString rfl hint (Nat.le_of_eq hf1.realSize.symm)
  refine ⟨s2, ?_, h2, hf1.alike ha2⟩
  unfold LocalityFieldLocator.resetHint
  rw [Call.on_bind, Call.on_lift, hhint]
  dsimp only [qdbAssert_true]
  rw [Call.on_bind, Call.on_lift, hprefix]
  dsimp only [qdbAssert_true]
  rw [hs1 Nat]
  exact hs2

/-- A mark and a name always fit. -/
theorem view_reset (heap : Heap UInt8) (mark : UInt8) (name : Bytes) :
    viewOf (reset mark name) heap = .ok ((mark :: name).map some) := by
  obtain ⟨s1, hs1, h1, hf1⟩ := on_resize_fresh heap (name.length + 1)
  have hwrites : Writes heap s1 (do KeyBuffer.put 0 mark; KeyBuffer.memcpy 1 name) () (mark :: name) := by
    refine (h1.put rfl (by rw [hf1.realSize]; simp)).bind fun s2 h2 ha2 => ?_
    exact h2.memcpy rfl (by rw [ha2.realSize, hf1.realSize]; exact Nat.le_refl _)
  obtain ⟨s2, hs2, h2, ha2⟩ := hwrites
  have hreset : (reset mark name).on (State.fresh heap) = (.ok (), s2) := by
    unfold reset
    rw [Call.on_bind, hs1]
    exact hs2
  unfold viewOf
  rw [Call.on_bind, hreset]
  dsimp only
  rw [h2.on_toView (ha2.realSize.trans hf1.realSize)]

theorem view_expirationEvent (heap : Heap UInt8) (deadline : UInt64) (redisKey : Bytes) :
    viewOf (ExpirationEventLocator deadline redisKey) heap =
      .ok ((64 :: (unsignedIntToBinaryString deadline ++ redisKey)).map some) := by
  have hdeadline := length_unsignedIntToBinaryString deadline
  have hlen : (64 :: (unsignedIntToBinaryString deadline ++ redisKey)).length =
      1 + 8 + redisKey.length := by
    rw [List.length_cons, List.length_append, hdeadline]
    omega
  obtain ⟨s1, hs1, h1, hf1⟩ := on_resize_fresh heap (1 + 8 + redisKey.length)
  have hwrites : Writes heap s1 (do
      KeyBuffer.put 0 64
      KeyBuffer.memcpy 1 (unsignedIntToBinaryString deadline)
      KeyBuffer.memcpy 9 redisKey) () (64 :: (unsignedIntToBinaryString deadline ++ redisKey)) := by
    refine (h1.put rfl (by rw [hf1.realSize]; simp; omega)).bind fun s2 h2 ha2 => ?_
    refine (h2.memcpy rfl ?_).bind fun s3 h3 ha3 => ?_
    · rw [ha2.realSize, hf1.realSize, List.length_append, hdeadline]
      simp
    · exact h3.memcpy (by rw [List.length_append, hdeadline]; rfl)
        (by rw [ha3.realSize, ha2.realSize, hf1.realSize, ← hlen]; simp)
  obtain ⟨s2, hs2, h2, ha2⟩ := hwrites
  have hreset : (ExpirationEventLocator deadline redisKey).on (State.fresh heap) = (.ok (), s2) := by
    unfold ExpirationEventLocator
    rw [Call.on_bind, hs1]
    exact hs2
  unfold viewOf
  rw [Call.on_bind, hreset]
  dsimp only
  rw [h2.on_toView (ha2.realSize.trans (hf1.realSize.trans hlen.symm))]

theorem view_field (heap : Heap UInt8) {t : KeyType} (ht : t.bearsFields = true)
    (key field : Bytes) :
    viewOf (FieldLocator.ofField t key field) heap =
        .ok ((quarkdb.appendEscapedString [t.toChar] key ++ field).map some) ↔
      ¬ (512 < (quarkdb.appendEscapedString [t.toChar] key).length ∧ field = []) := by
  obtain ⟨s, hs, h, hf⟩ := on_resetKey heap ht key
  rw [← h.view_iff hf]
  unfold viewOf FieldLocator.ofField
  rw [bind_assoc, Call.on_bind, hs]
  rfl

/-- The locator of a field is written as it is said to be, or not at all. -/
theorem view_ofField (heap : Heap UInt8) (t : KeyType) (key field : Bytes) :
    viewOf (FieldLocator.ofField t key field) heap =
      (quarkdb.FieldLocator.ofField t key field).map fun l => l.toView.map some := by
  by_cases ht : t.bearsFields = true
  swap
  · have hassert : (quarkdb.FieldLocator.ofField t key field) =
        .error (.assertion "keyType is one of kHash, kSet, kDeque, kVersionedHash") := by
      unfold quarkdb.FieldLocator.ofField quarkdb.FieldLocator.resetKey
      rw [Bool.not_eq_true] at ht
      rw [ht]
      rfl
    unfold viewOf FieldLocator.ofField FieldLocator.resetKey
    rw [hassert, bind_assoc, bind_assoc, Call.on_bind, Call.on_lift, Bool.not_eq_true _ |>.mp ht]
    rfl
  by_cases hn : quarkdb.FieldLocator.Frees t key field
  · obtain ⟨hbig, rfl⟩ := hn
    obtain ⟨s, hs, h, hf⟩ := on_resetKey heap ht key
    have hview := h.view_full hf hbig
    rw [quarkdb.FieldLocator.ofField_frees ht ⟨hbig, rfl⟩]
    unfold viewOf FieldLocator.ofField
    rw [bind_assoc, Call.on_bind, hs]
    exact hview
  · obtain ⟨block, hl⟩ := quarkdb.FieldLocator.ofField_eq ht hn
    rw [hl]
    exact (view_field heap ht key field).mpr hn

theorem on_ofHint (heap : Heap UInt8) {key hint : Bytes} (hk : key ≠ []) (hh : hint ≠ []) :
    ∃ s', (LocalityFieldLocator.ofHint key hint).on (State.fresh heap) =
        (.ok (quarkdb.appendEscapedString (localityPrefix .kData key) hint).length, s') ∧
      Spells heap s' (quarkdb.appendEscapedString (localityPrefix .kData key) hint) ∧
      Filled s' (512 ≤ (quarkdb.appendEscapedString (localityPrefix .kData key) hint).length)
        (quarkdb.appendEscapedString (localityPrefix .kData key) hint).length := by
  obtain ⟨s1, hs1, h1, hf1⟩ := on_resetLocalityKey heap .kData hk
  have hp : localityPrefix .kData key ≠ [] := fun hnil =>
    localityPrefix_length_ne_zero .kData key (congrArg List.length hnil)
  obtain ⟨s2, hs2, h2, hf2⟩ := h1.resetHint hf1 hp hh
  refine ⟨s2, ?_, h2, hf2⟩
  unfold LocalityFieldLocator.ofHint LocalityFieldLocator.resetKey
  rw [Call.on_bind, hs1]
  exact hs2

theorem view_localityField (heap : Heap UInt8) {key hint : Bytes} (hk : key ≠ []) (hh : hint ≠ [])
    (field : Bytes) :
    viewOf (LocalityFieldLocator.ofField key hint field) heap =
        .ok ((quarkdb.appendEscapedString (localityPrefix .kData key) hint ++ field).map some) ↔
      ¬ (512 ≤ (quarkdb.appendEscapedString (localityPrefix .kData key) hint).length ∧
        field = []) := by
  obtain ⟨s, hs, h, hf⟩ := on_ofHint heap hk hh
  have hne : ((quarkdb.appendEscapedString (localityPrefix .kData key) hint).length != 0) = true :=
    bne_iff_ne.mpr (appendEscapedString_length_ne_zero _ hint)
  rw [← h.view_iff hf]
  unfold viewOf LocalityFieldLocator.ofField LocalityFieldLocator.resetField
  rw [bind_assoc, Call.on_bind, hs]
  dsimp only
  rw [bind_assoc, Call.on_bind, Call.on_lift, hne]
  rfl

/-- And so is the locator of a field of a locality hash. -/
theorem view_ofLocalityField (heap : Heap UInt8) {key hint : Bytes} (hk : key ≠ []) (hh : hint ≠ [])
    (field : Bytes) :
    viewOf (LocalityFieldLocator.ofField key hint field) heap =
      (quarkdb.LocalityFieldLocator.ofField key hint field).map fun l => l.toView.map some := by
  by_cases hn : quarkdb.LocalityFieldLocator.Frees key hint field
  · obtain ⟨hbig, rfl⟩ := hn
    obtain ⟨s, hs, h, hf⟩ := on_ofHint heap hk hh
    have hview := h.view_full hf hbig
    have hne : ((quarkdb.appendEscapedString (localityPrefix .kData key) hint).length != 0) = true :=
      bne_iff_ne.mpr (appendEscapedString_length_ne_zero _ hint)
    rw [quarkdb.LocalityFieldLocator.ofField_frees hk hh ⟨hbig, rfl⟩]
    unfold viewOf LocalityFieldLocator.ofField LocalityFieldLocator.resetField
    rw [bind_assoc, Call.on_bind, hs]
    dsimp only
    rw [bind_assoc, Call.on_bind, Call.on_lift, hne]
    exact hview
  · obtain ⟨block, hl⟩ := quarkdb.LocalityFieldLocator.ofField_eq hk hh hn
    rw [hl]
    exact (view_localityField heap hk hh field).mpr hn

theorem view_localityIndex (heap : Heap UInt8) {key field : Bytes} (hk : key ≠ [])
    (hfield : field ≠ []) :
    viewOf (LocalityIndexLocator.ofField key field) heap =
      .ok ((localityPrefix .kIndex key ++ field).map some) := by
  obtain ⟨s, hs, h, hf⟩ := on_resetLocalityKey heap .kIndex hk
  have hne : (!field.isEmpty) = true := by simpa using hfield
  have hview := (h.view_iff hf).mpr fun hbad => hfield hbad.2
  rw [← hview]
  unfold viewOf LocalityIndexLocator.ofField LocalityIndexLocator.resetKey
    LocalityIndexLocator.resetField
  rw [bind_assoc, Call.on_bind, hs]
  dsimp only
  rw [bind_assoc, Call.on_bind, Call.on_lift, hne]
  rfl

end

end KeyBuffer

open KeyBuffer

/-- Every run of a buffer of any size keeps what is in it exactly if no block that is full is
expanded by nothing. Of the locators, those with a field may do that, when it is empty. -/
theorem bytes_are_kept_unless_a_full_block_is_expanded (heap : Heap UInt8) :
    (∀ (StaticSize : Nat) (ops : List Op),
      Along (fun s op => op.Allowed s) (State.fresh heap : State StaticSize) ops →
        Sound heap (State.fresh heap : State StaticSize) ∧
        (Along (Keeps heap) (State.fresh heap : State StaticSize) ops ↔
          Along (fun s op => ¬ op.Refills s) (State.fresh heap : State StaticSize) ops)) ∧
    (∀ redisKey : Bytes,
      viewOf (DescriptorLocator redisKey) heap = .ok ((33 :: redisKey).map some) ∧
      viewOf (StringLocator redisKey) heap = .ok ((KeyType.kString.toChar :: redisKey).map some) ∧
      viewOf (LeaseLocator redisKey) heap = .ok ((KeyType.kLease.toChar :: redisKey).map some) ∧
      viewOf (ConfigurationLocator redisKey) heap = .ok ((126 :: redisKey).map some) ∧
      ∀ deadline, viewOf (ExpirationEventLocator deadline redisKey) heap =
        .ok ((64 :: (unsignedIntToBinaryString deadline ++ redisKey)).map some)) ∧
    (∀ (t : KeyType) (redisKey field : Bytes), t.bearsFields = true →
      (viewOf (KeyBuffer.FieldLocator.ofField t redisKey field) heap =
          .ok ((appendEscapedString [t.toChar] redisKey ++ field).map some) ↔
        ¬ (512 < (appendEscapedString [t.toChar] redisKey).length ∧ field = []))) ∧
    (∀ (redisKey hint field : Bytes), redisKey ≠ [] → hint ≠ [] →
      (viewOf (KeyBuffer.LocalityFieldLocator.ofField redisKey hint field) heap =
          .ok ((appendEscapedString (localityPrefix .kData redisKey) hint ++ field).map some) ↔
        ¬ (512 ≤ (appendEscapedString (localityPrefix .kData redisKey) hint).length ∧
          field = []))) ∧
    (∀ (redisKey field : Bytes), redisKey ≠ [] → field ≠ [] →
      viewOf (KeyBuffer.LocalityIndexLocator.ofField redisKey field) heap =
        .ok ((localityPrefix .kIndex redisKey ++ field).map some)) := by
  refine ⟨fun StaticSize ops ha => ?_, fun redisKey => ?_,
    fun t redisKey field ht => view_field heap ht redisKey field,
    fun redisKey hint field hk hh => view_localityField heap hk hh field,
    fun redisKey field hk hf => view_localityIndex heap hk hf⟩
  · have hfresh : Backed heap (State.fresh heap : State StaticSize) _ := backed_fresh heap
    exact ⟨hfresh.sound, hfresh.along_iff ops ha⟩
  · exact ⟨view_reset heap 33 redisKey, view_reset heap _ redisKey, view_reset heap _ redisKey,
      view_reset heap 126 redisKey, fun deadline => view_expirationEvent heap deadline redisKey⟩

theorem a_block_expanded_by_nothing_is_freed_twice :
    let ops : List Op := [.resize 2, .expand 2]
    let s : State 1 := ((expand 2).on ((resize 2).on (State.fresh [])).2).2
    Along (fun s op => op.Allowed s) (State.fresh [] : State 1) ops ∧
      ¬ Along (Keeps []) (State.fresh [] : State 1) ops ∧
      s.bytesAt s.buffer.heapBuffer = none ∧ (toView.on s).1 = .error .outOfBounds ∧
      (destruct.on s).2.heap.map Block.frees = [2] ∧
      viewOf (KeyBuffer.FieldLocator.ofField .kHash (List.replicate 510 97) []) [] ≠
        .ok ((appendEscapedString [KeyType.kHash.toChar] (List.replicate 510 97)).map some) := by
  refine ⟨⟨trivial, Nat.le_refl 2, trivial⟩, fun hkept => ?_, rfl, rfl, rfl, fun hview => ?_⟩
  · obtain ⟨bytes, hlive, -⟩ := hkept.2.1.sound.live
    cases hlive
  · have hbears : KeyType.kHash.bearsFields = true := rfl
    refine (view_field [] hbears (List.replicate 510 97) []).mp ?_ ⟨?_, rfl⟩
    · rw [List.append_nil]
      exact hview
    · rw [length_appendEscapedString, List.length_replicate, List.length_singleton]
      omega

end quarkdb
