-- SmartBuffer: bytes that are inline up to a size, and in a block of the heap beyond it. An
-- expansion by nothing of a block that is full frees the block, and the buffer goes on using it.
import QuarkDB.Bytes
import QuarkDB.Memory

namespace quarkdb

open Memory

/-- The members of a `SmartBuffer`. A byte holds nothing until it is written, and the address of
a block is all that there is to a pointer. -/
structure SmartBuffer (StaticSize : Nat) where
  staticBuffer : List (Option UInt8)
  realSize : Nat := StaticSize
  heapBuffer : Option Nat := none
  heapBufferSize : Nat := 0
  length_staticBuffer : staticBuffer.length = StaticSize

namespace SmartBuffer

variable {StaticSize : Nat}

def containerSize (b : SmartBuffer StaticSize) : Nat :=
  match b.heapBuffer with
  | some _ => b.heapBufferSize
  | none => StaticSize

/-- A buffer, and the heap that it has its blocks in. -/
structure State (StaticSize : Nat) where
  buffer : SmartBuffer StaticSize
  heap : Heap UInt8

/-- The bytes that `data()` or an old `heapBuffer` points at. A freed block has none. -/
def State.bytesAt (s : State StaticSize) : Option Nat → Option (List (Option UInt8))
  | some a => s.heap.cells a
  | none => some s.buffer.staticBuffer

def data : Call (State StaticSize) (Option Nat) := return (← get).buffer.heapBuffer

/-- So many bytes are read from where a pointer points. -/
def read (pointer : Option Nat) (count : Nat) : Call (State StaticSize) (List (Option UInt8)) :=
  ExceptT.mk fun s =>
    match s.bytesAt pointer with
    | some bytes =>
      if count ≤ bytes.length then (.ok (bytes.take count), s) else (.error .outOfBounds, s)
    | none => (.error .outOfBounds, s)

/-- Bytes are written behind a pointer, an offset away. -/
def write (pointer : Option Nat) (offset : Nat) (new : List (Option UInt8)) :
    Call (State StaticSize) Unit :=
  ExceptT.mk fun s =>
    match pointer with
    | some a =>
      match s.heap.cells a with
      | some bytes =>
        if offset + new.length ≤ bytes.length then
          (.ok (), { s with heap := s.heap.write a (patch bytes offset new) })
        else (.error .outOfBounds, s)
      | none => (.error .outOfBounds, s)
    | none =>
      if h : offset + new.length ≤ s.buffer.staticBuffer.length then
        (.ok (), { s with buffer := { s.buffer with
          staticBuffer := patch s.buffer.staticBuffer offset new
          length_staticBuffer := (length_patch h).trans s.buffer.length_staticBuffer } })
      else (.error .outOfBounds, s)

def malloc (size : Nat) : Call (State StaticSize) Nat :=
  ExceptT.mk fun s => (.ok s.heap.length, { s with heap := s.heap.malloc size })

/-- A block that is freed for the second time counts it, and what follows is undefined. -/
def free (a : Nat) : Call (State StaticSize) Unit :=
  ExceptT.mk fun s =>
    match s.heap.cells a with
    | some _ => (.ok (), { s with heap := s.heap.free a })
    | none => (.error .outOfBounds, { s with heap := s.heap.free a })

def setHeapBuffer (heapBuffer : Option Nat) : Call (State StaticSize) Unit :=
  modify fun s => { s with buffer := { s.buffer with heapBuffer } }

def setHeapBufferSize (heapBufferSize : Nat) : Call (State StaticSize) Unit :=
  modify fun s => { s with buffer := { s.buffer with heapBufferSize } }

def setRealSize (realSize : Nat) : Call (State StaticSize) Unit :=
  modify fun s => { s with buffer := { s.buffer with realSize } }

def deallocate : Call (State StaticSize) Unit := do
  match (← get).buffer.heapBuffer with
  | some a =>
    free a
    setHeapBuffer none
  | none => return ()

def allocate (size : Nat) : Call (State StaticSize) Unit := do
  if (← get).buffer.realSize < size then
    setHeapBuffer (some (← malloc size))
    setHeapBufferSize size

def resize (size : Nat) : Call (State StaticSize) Unit := do
  if (← get).buffer.containerSize < size then
    deallocate
    allocate size
  setRealSize size

def shrink (size : Nat) : Call (State StaticSize) Unit := do
  liftM (qdbAssert (size ≤ (← get).buffer.realSize) "size <= realSize")
  setRealSize size

def expand (size : Nat) : Call (State StaticSize) Unit := do
  let realSize := (← get).buffer.realSize
  liftM (qdbAssert (realSize ≤ size) "realSize <= size")
  if size < (← get).buffer.containerSize then setRealSize size
  else
    let oldHeapBuffer := (← get).buffer.heapBuffer
    allocate size
    match oldHeapBuffer with
    | some a =>
      write (← data) 0 (← read (some a) realSize)
      free a
    | none => write (← data) 0 (← read none realSize)
    setRealSize size

/-- The destructor. -/
def destruct : Call (State StaticSize) Unit := deallocate

def toView : Call (State StaticSize) (List (Option UInt8)) := do
  read (← data) (← get).buffer.realSize

/-- A new buffer, around bytes that nobody has written. -/
def State.fresh (heap : Heap UInt8) : State StaticSize where
  buffer :=
    { staticBuffer := List.replicate StaticSize none, length_staticBuffer := List.length_replicate }
  heap := heap

/-! ## What holds of a buffer -/

/-- The buffer has so many bytes, at least as many as are in use. They are live, and of all
blocks that it ever had, any other was freed once. -/
structure Backed (base : Heap UInt8) (s : State StaticSize) (bytes : List (Option UInt8)) :
    Prop where
  grown : Grown base s.buffer.heapBuffer.toList s.heap
  live : s.bytesAt s.buffer.heapBuffer = some bytes
  length : bytes.length = s.buffer.containerSize
  fits : s.buffer.realSize ≤ bytes.length

/-- The buffer is where it was, and has as many bytes in use. -/
structure Alike (s s' : State StaticSize) : Prop where
  realSize : s'.buffer.realSize = s.buffer.realSize
  heapBuffer : s'.buffer.heapBuffer = s.buffer.heapBuffer
  heapBufferSize : s'.buffer.heapBufferSize = s.buffer.heapBufferSize

section

variable {base : Heap UInt8} {s s' : State StaticSize} {bytes new : List (Option UInt8)}
  {pointer : Option Nat} {size offset count : Nat}

theorem Alike.containerSize (h : Alike s s') : s'.buffer.containerSize = s.buffer.containerSize := by
  unfold SmartBuffer.containerSize
  rw [h.heapBuffer, h.heapBufferSize]

theorem Alike.trans {s'' : State StaticSize} (h : Alike s s') (h' : Alike s' s'') : Alike s s'' where
  realSize := h'.realSize.trans h.realSize
  heapBuffer := h'.heapBuffer.trans h.heapBuffer
  heapBufferSize := h'.heapBufferSize.trans h.heapBufferSize

theorem backed_fresh (heap : Heap UInt8) :
    Backed heap (State.fresh heap : State StaticSize) (List.replicate StaticSize none) where
  grown := Grown.refl heap
  live := rfl
  length := List.length_replicate
  fits := by
    rw [List.length_replicate]
    exact Nat.le_refl _

theorem on_data : data.on s = (.ok s.buffer.heapBuffer, s) := rfl

theorem on_read (hlive : s.bytesAt pointer = some bytes) (hcount : count ≤ bytes.length) :
    (read pointer count).on s = (.ok (bytes.take count), s) := by
  unfold read Call.on
  simp only [ExceptT.run_mk, StateT.run]
  rw [hlive]
  exact if_pos hcount

theorem Backed.on_toView (h : Backed base s bytes) :
    toView.on s = (.ok (bytes.take s.buffer.realSize), s) := by
  unfold toView
  rw [Call.on_bind, on_data]
  exact on_read h.live h.fits

theorem on_write_dead (hdead : s.bytesAt pointer = none) :
    (write pointer offset new).on s = (.error .outOfBounds, s) := by
  rcases pointer with _ | a
  · cases hdead
  · unfold write Call.on
    simp only [ExceptT.run_mk, StateT.run]
    rw [show s.heap.cells a = none from hdead]

theorem on_write_block {a : Nat} (hlive : s.heap.cells a = some bytes)
    (hfits : offset + new.length ≤ bytes.length) :
    (write (some a) offset new).on s =
      (.ok (), { s with heap := s.heap.write a (patch bytes offset new) }) := by
  unfold write Call.on
  simp only [ExceptT.run_mk, StateT.run]
  rw [hlive]
  exact if_pos hfits

theorem Backed.on_write (h : Backed base s bytes) (offset : Nat) (new : List (Option UInt8))
    (hfits : offset + new.length ≤ bytes.length) :
    ∃ s', (write s.buffer.heapBuffer offset new).on s = (.ok (), s') ∧
      Backed base s' (patch bytes offset new) ∧ Alike s s' := by
  have hlen := length_patch hfits
  obtain ⟨⟨staticBuffer, realSize, heapBuffer, heapBufferSize, hstatic⟩, heap⟩ := s
  obtain ⟨hgrown, hlive, hlength, hsize⟩ := h
  cases heapBuffer with
  | none =>
    cases hlive
    exact ⟨_, dif_pos hfits, ⟨hgrown, rfl, hlen.trans hlength, hlen ▸ hsize⟩, rfl, rfl, rfl⟩
  | some a =>
    have ha : a < heap.length := Heap.lt_of_cells hlive
    exact ⟨_, on_write_block hlive hfits, ⟨hgrown.write List.mem_cons_self _,
      Heap.cells_write ha, hlen.trans hlength, hlen ▸ hsize⟩, rfl, rfl, rfl⟩

/-- The size alone changes. -/
theorem Backed.resized (h : Backed base s bytes) (hsize : size ≤ bytes.length) :
    Backed base { s with buffer := { s.buffer with realSize := size } } bytes where
  grown := h.grown
  live := h.live
  length := h.length
  fits := hsize

theorem on_free {a : Nat} (hlive : s.heap.cells a = some bytes) :
    (free a).on s = (.ok (), { s with heap := s.heap.free a }) := by
  unfold free Call.on
  simp only [ExceptT.run_mk, StateT.run]
  rw [hlive]

/-- All blocks of the buffer are freed in the end. -/
theorem Backed.on_deallocate (h : Backed base s bytes) :
    ∃ s', deallocate.on s = (.ok (), s') ∧ Grown base [] s'.heap ∧ s'.buffer.heapBuffer = none ∧
      s'.buffer.realSize = s.buffer.realSize := by
  obtain ⟨⟨staticBuffer, realSize, heapBuffer, heapBufferSize, hstatic⟩, heap⟩ := s
  obtain ⟨hgrown, hlive, hlength, hsize⟩ := h
  cases heapBuffer with
  | none => exact ⟨_, rfl, hgrown, rfl, rfl⟩
  | some a =>
    have hg := hgrown.free (a := a) List.mem_cons_self
    unfold deallocate
    rw [Call.on_bind, Call.on_get]
    dsimp only
    rw [Call.on_bind, on_free hlive]
    exact ⟨_, rfl, by simpa using hg, rfl, rfl⟩

/-- A new block, of which nothing is written. -/
def State.allocated (s : State StaticSize) (size : Nat) : State StaticSize where
  buffer := { s.buffer with heapBuffer := some s.heap.length, heapBufferSize := size }
  heap := s.heap.malloc size

theorem on_allocate (hsize : s.buffer.realSize < size) :
    (allocate size).on s = (.ok (), s.allocated size) := by
  unfold allocate
  rw [Call.on_bind, Call.on_get]
  dsimp only
  rw [if_pos hsize]
  rfl

theorem backed_allocated (hg : Grown base [] s.heap) (hsize : s.buffer.realSize ≤ size) :
    Backed base (s.allocated size) (List.replicate size none) where
  grown := hg.malloc size
  live := Heap.cells_malloc_new
  length := List.length_replicate
  fits := by
    rw [List.length_replicate]
    exact hsize

theorem on_allocate_of_le (hsize : size ≤ s.buffer.realSize) :
    (allocate size).on s = (.ok (), s) := by
  unfold allocate
  rw [Call.on_bind, Call.on_get]
  dsimp only
  rw [if_neg (Nat.not_lt.mpr hsize)]
  rfl

theorem on_shrink (hsize : size ≤ s.buffer.realSize) :
    (shrink size).on s = (.ok (), { s with buffer := { s.buffer with realSize := size } }) := by
  unfold shrink
  rw [Call.on_bind, Call.on_get]
  dsimp only
  rw [Call.on_bind, Call.on_lift, decide_eq_true hsize]
  rfl

/-- A buffer of another size is where it was if there was room, and in a new block if not. -/
structure Resized (s : State StaticSize) (room : Prop) (size : Nat) (s' : State StaticSize) :
    Prop where
  realSize : s'.buffer.realSize = size
  stays : room → s'.buffer.heapBuffer = s.buffer.heapBuffer ∧
    s'.buffer.containerSize = s.buffer.containerSize
  moves : ¬ room → s'.buffer.heapBuffer.isSome ∧ s'.buffer.containerSize = size

theorem Backed.on_resize (h : Backed base s bytes) (size : Nat) :
    ∃ s' bytes', (resize size).on s = (.ok (), s') ∧ Backed base s' bytes' ∧
      Resized s (size ≤ s.buffer.containerSize) size s' := by
  unfold resize
  rw [Call.on_bind, Call.on_get]
  dsimp only
  by_cases hsize : s.buffer.containerSize < size
  · obtain ⟨s1, hs1, hg, -, hreal⟩ := h.on_deallocate
    have hfits := h.fits
    rw [h.length] at hfits
    rw [if_pos hsize, Call.on_bind, hs1]
    dsimp only
    rw [Call.on_bind, on_allocate (by omega)]
    have hb : Backed base (s1.allocated size) _ := backed_allocated hg (by omega)
    exact ⟨_, _, rfl, hb.resized (by rw [List.length_replicate]), rfl, fun hroom => by omega,
      fun _ => ⟨rfl, rfl⟩⟩
  · have hroom := Nat.not_lt.mp hsize
    rw [if_neg hsize]
    refine ⟨_, _, rfl, h.resized ?_, rfl, fun _ => ⟨rfl, rfl⟩, fun hno => absurd hroom hno⟩
    rw [h.length]
    exact hroom

/-- The bytes are in a block that they fill. -/
def State.Full (s : State StaticSize) : Prop :=
  s.buffer.heapBuffer.isSome ∧ s.buffer.containerSize = s.buffer.realSize

instance (s : State StaticSize) : Decidable s.Full := inferInstanceAs (Decidable (_ ∧ _))

/-- The bytes of a block that begins with old ones. -/
theorem take_patch_take (cells : List (Option UInt8)) (hcount : count ≤ bytes.length) :
    (patch cells 0 (bytes.take count)).take count = bytes.take count := by
  rw [take_patch rfl rfl (by rw [List.length_take]; omega)]
  exact List.nil_append _

/-- An expansion in place. -/
theorem on_expand_of_lt (hle : s.buffer.realSize ≤ size) (hroom : size < s.buffer.containerSize) :
    (expand size).on s = (.ok (), { s with buffer := { s.buffer with realSize := size } }) := by
  unfold expand
  rw [Call.on_bind, Call.on_get]
  dsimp only
  rw [Call.on_bind, Call.on_lift, decide_eq_true hle]
  dsimp only [qdbAssert_true]
  rw [Call.on_bind, Call.on_get]
  dsimp only
  rw [if_pos hroom]
  rfl

/-- The bytes are copied to where they have room. -/
def move (size : Nat) (pointer : Option Nat) (count : Nat) : Call (State StaticSize) Unit := do
  allocate size
  write (← data) 0 (← read pointer count)

/-- What an expansion does when there is no room. -/
theorem on_expand_of_le (hle : s.buffer.realSize ≤ size) (hroom : s.buffer.containerSize ≤ size) :
    (expand size).on s = (do
      move size s.buffer.heapBuffer s.buffer.realSize
      match s.buffer.heapBuffer with
      | some a => free a
      | none => pure ()
      setRealSize size : Call (State StaticSize) Unit).on s := by
  unfold expand
  rw [Call.on_bind, Call.on_get]
  dsimp only
  rw [Call.on_bind, Call.on_lift, decide_eq_true hle]
  dsimp only [qdbAssert_true]
  rw [Call.on_bind, Call.on_get]
  dsimp only
  rw [if_neg (Nat.not_lt.mpr hroom), Call.on_bind, Call.on_get]
  dsimp only
  unfold move
  cases s.buffer.heapBuffer <;> simp only [bind_assoc]

/-- The bytes that are in use are moved to a new block, and none of the old ones changes. -/
theorem on_move (hlive : s.bytesAt s.buffer.heapBuffer = some bytes)
    (hfits : s.buffer.realSize ≤ bytes.length) (hlt : s.buffer.realSize < size) :
    ∃ s', (move size s.buffer.heapBuffer s.buffer.realSize).on s = (.ok (), s') ∧
      Backed s.heap s' (patch (List.replicate size none) 0 (bytes.take s.buffer.realSize)) ∧
      Alike (s.allocated size) s' := by
  have htake : (bytes.take s.buffer.realSize).length = s.buffer.realSize := by
    rw [List.length_take]
    omega
  have hnew : Backed s.heap (s.allocated size) (List.replicate size none) :=
    backed_allocated (Grown.refl s.heap) (by omega)
  have hold : (s.allocated size).bytesAt s.buffer.heapBuffer = some bytes := by
    rcases hp : s.buffer.heapBuffer with _ | a
    · rw [hp] at hlive
      exact hlive
    · rw [hp] at hlive
      exact (Heap.cells_malloc (Heap.lt_of_cells hlive)).trans hlive
  obtain ⟨s', hs', hb, halike⟩ := hnew.on_write 0 (bytes.take s.buffer.realSize) (by rw [htake, List.length_replicate]; omega)
  refine ⟨s', ?_, hb, halike⟩
  unfold move
  rw [Call.on_bind, on_allocate hlt]
  dsimp only
  rw [Call.on_bind, on_data]
  dsimp only
  rw [Call.on_bind, on_read hold hfits]
  exact hs'

theorem Backed.on_expand (h : Backed base s bytes) (hle : s.buffer.realSize ≤ size)
    (hfull : ¬ (s.Full ∧ size = s.buffer.realSize)) :
    ∃ s' bytes', (expand size).on s = (.ok (), s') ∧ Backed base s' bytes' ∧
      Resized s (size < s.buffer.containerSize ∨ size = s.buffer.realSize) size s' ∧
      bytes'.take s.buffer.realSize = bytes.take s.buffer.realSize := by
  have hlength := h.length
  have hfits := h.fits
  by_cases hroom : size < s.buffer.containerSize
  · rw [on_expand_of_lt hle hroom]
    exact ⟨_, _, rfl, h.resized (by omega), ⟨rfl, fun _ => ⟨rfl, rfl⟩, fun hno => by omega⟩, rfl⟩
  rw [on_expand_of_le hle (Nat.not_lt.mp hroom), Call.on_bind]
  have htake : (bytes.take s.buffer.realSize).length = s.buffer.realSize := by
    rw [List.length_take]
    omega
  rcases Nat.lt_or_ge s.buffer.realSize size with hlt | hge
  · obtain ⟨s1, hs1, hb, halike⟩ := on_move h.live hfits hlt
    have hgrown := h.grown.trans hb.grown
    have hlen : (patch (List.replicate size none) 0 (bytes.take s.buffer.realSize)).length = size := by
      rw [length_patch (by simp; omega), List.length_replicate]
    have hkept := take_patch_take (List.replicate size none) hfits
    have hcontainer : s1.buffer.containerSize = size := halike.containerSize
    have hptr : s1.buffer.heapBuffer = some s.heap.length := halike.heapBuffer
    have hmoved : Resized s (size < s.buffer.containerSize ∨ size = s.buffer.realSize) size
        { s1 with buffer := { s1.buffer with realSize := size } } :=
      ⟨rfl, fun hyes => by omega, fun _ => ⟨by rw [hptr]; rfl, hcontainer⟩⟩
    rw [hs1]
    dsimp only
    rcases hp : s.buffer.heapBuffer with _ | a
    · rw [hp, hptr] at hgrown
      refine ⟨_, _, rfl, ?_, hmoved, hkept⟩
      exact ⟨by rw [hptr]; exact hgrown, hb.live, hb.length, by rw [hlen]⟩
    · have ha : a < s.heap.length := h.grown.lt_length (by rw [hp]; exact List.mem_cons_self)
      have hne : a ≠ s.heap.length := Nat.ne_of_lt ha
      have hold : s1.heap.cells a = some bytes := by
        rw [Heap.cells_congr (hb.grown.others a ha)]
        have hlive := h.live
        rw [hp] at hlive
        exact hlive
      have hfreed := hgrown.free (a := a) (by simp [hp])
      have hnew := hb.live
      rw [hptr] at hnew
      dsimp only
      rw [Call.on_bind, on_free hold]
      refine ⟨_, _, rfl, ⟨?_, ?_, hb.length, by rw [hlen]⟩,
        ⟨hmoved.realSize, hmoved.stays, hmoved.moves⟩, hkept⟩
      · simpa [hptr, hp, hne.symm] using hfreed
      · simp only [hptr]
        exact (Heap.cells_free_ne hne).trans hnew
  · -- Nothing is gained, so the bytes are inline, and they are copied to where they are.
    obtain rfl : s.buffer.realSize = size := Nat.le_antisymm hle hge
    have hinline : s.buffer.heapBuffer = none := by
      by_contra hne
      obtain ⟨a, hp⟩ := Option.ne_none_iff_exists'.mp hne
      exact hfull ⟨⟨by rw [hp]; rfl, by omega⟩, rfl⟩
    obtain ⟨s1, hs1, hb, halike⟩ := h.on_write 0 (bytes.take s.buffer.realSize) (by rw [htake]; omega)
    have hreal : s1.buffer.realSize ≤ _ := hb.fits
    rw [halike.realSize] at hreal
    unfold move
    rw [Call.on_bind, on_allocate_of_le hle]
    dsimp only
    rw [Call.on_bind, on_data]
    dsimp only
    rw [Call.on_bind, on_read h.live hfits]
    dsimp only
    rw [hs1, hinline]
    exact ⟨_, _, rfl, hb.resized hreal, ⟨rfl, fun _ => ⟨halike.heapBuffer, halike.containerSize⟩,
      fun hno => absurd (.inr rfl) hno⟩, take_patch_take _ hfits⟩

/-- A full block that is expanded by nothing is freed, and the buffer goes on pointing at it. -/
theorem Backed.on_expand_full (h : Backed base s bytes) (hfull : s.Full) :
    ∃ s', (expand s.buffer.realSize).on s = (.ok (), s') ∧
      s'.bytesAt s'.buffer.heapBuffer = none := by
  obtain ⟨hsome, hcontainer⟩ := hfull
  obtain ⟨a, hp⟩ := Option.isSome_iff_exists.mp hsome
  have hfits := h.fits
  have htake : (bytes.take s.buffer.realSize).length = s.buffer.realSize := by
    rw [List.length_take]
    omega
  obtain ⟨s1, hs1, hb, halike⟩ := h.on_write 0 (bytes.take s.buffer.realSize) (by rw [htake]; omega)
  have hptr : s1.buffer.heapBuffer = some a := halike.heapBuffer.trans hp
  have hlive := hb.live
  rw [hptr] at hlive
  rw [on_expand_of_le (Nat.le_refl _) (Nat.le_of_eq hcontainer), Call.on_bind]
  unfold move
  rw [Call.on_bind, on_allocate_of_le (Nat.le_refl _)]
  dsimp only
  rw [Call.on_bind, on_data]
  dsimp only
  rw [Call.on_bind, on_read h.live hfits]
  dsimp only
  rw [hs1, hp]
  dsimp only
  rw [Call.on_bind, on_free hlive]
  refine ⟨_, rfl, ?_⟩
  simp only [hptr]
  exact Heap.cells_free (Heap.lt_of_cells hlive)

end

/-! ## Runs -/

/-- What a user of the buffer does. -/
inductive Op
  | resize (size : Nat)
  | shrink (size : Nat)
  | expand (size : Nat)
  | write (i : Nat) (c : UInt8)
  deriving Repr, DecidableEq

namespace Op

def call : Op → Call (State StaticSize) Unit
  | .resize size => SmartBuffer.resize size
  | .shrink size => SmartBuffer.shrink size
  | .expand size => SmartBuffer.expand size
  | .write i c => do SmartBuffer.write (← data) i [some c]

/-- The assertions hold, and what is written to is in use. -/
def Allowed (s : State StaticSize) : Op → Prop
  | .resize _ => True
  | .shrink size => size ≤ s.buffer.realSize
  | .expand size => s.buffer.realSize ≤ size
  | .write i _ => i < s.buffer.realSize

/-- A block that is full is expanded by nothing. -/
def Refills (s : State StaticSize) : Op → Prop
  | .expand size => s.Full ∧ size = s.buffer.realSize
  | _ => False

/-- What becomes of the bytes in use. -/
def Turns (before after : List (Option UInt8)) : Op → Prop
  | .resize size => after.length = size
  | .shrink size => after = before.take size
  | .expand size => after.length = size ∧ after.take before.length = before
  | .write i c => after = before.set i (some c)

end Op

/-- The buffer points at enough bytes that are live, and if it is destructed now, each of its
blocks was freed once. -/
structure Sound (base : Heap UInt8) (s : State StaticSize) : Prop where
  live : ∃ bytes, s.bytesAt s.buffer.heapBuffer = some bytes ∧ s.buffer.realSize ≤ bytes.length
  once : ∃ s', destruct.on s = (.ok (), s') ∧ Grown base [] s'.heap

/-- An operation goes through, does to the bytes what it should and leaves the buffer sound. -/
structure Keeps (base : Heap UInt8) (s : State StaticSize) (op : Op) : Prop where
  returns : (op.call.on s).1 = .ok ()
  sound : Sound base (op.call.on s).2
  turns : ∃ before after, (toView.on s).1 = .ok before ∧
    (toView.on (op.call.on s).2).1 = .ok after ∧ op.Turns before after

/-- Something holds of every operation of a run, and of the state that it is done in. -/
def Along (holds : State StaticSize → Op → Prop) : State StaticSize → List Op → Prop
  | _, [] => True
  | s, op :: ops => holds s op ∧ Along holds (op.call.on s).2 ops

section

variable {base : Heap UInt8} {s : State StaticSize} {bytes : List (Option UInt8)} {op : Op}

theorem Backed.sound (h : Backed base s bytes) : Sound base s where
  live := ⟨bytes, h.live, h.fits⟩
  once := by
    obtain ⟨s', hs', hg, -⟩ := h.on_deallocate
    exact ⟨s', hs', hg⟩

theorem keeps_of_backed {s' : State StaticSize} {bytes' : List (Option UInt8)}
    (h : Backed base s bytes) (hs' : op.call.on s = (.ok (), s')) (h' : Backed base s' bytes')
    (hturns : op.Turns (bytes.take s.buffer.realSize) (bytes'.take s'.buffer.realSize)) :
    Keeps base s op ∧ ∃ bytes', Backed base (op.call.on s).2 bytes' := by
  refine ⟨⟨?_, ?_, ?_⟩, ?_⟩
  · rw [hs']
  · rw [hs']
    exact h'.sound
  · rw [hs', h.on_toView, h'.on_toView]
    exact ⟨_, _, rfl, rfl, hturns⟩
  · rw [hs']
    exact ⟨bytes', h'⟩

/-- One operation. -/
theorem Backed.keeps (h : Backed base s bytes) (ha : op.Allowed s) (hn : ¬ op.Refills s) :
    Keeps base s op ∧ ∃ bytes', Backed base (op.call.on s).2 bytes' := by
  have hfits := h.fits
  cases op with
  | resize size =>
    obtain ⟨s', bytes', hs', hb, hr⟩ := h.on_resize size
    refine keeps_of_backed h hs' hb ?_
    have hfits' := hb.fits
    rw [hr.realSize] at hfits' ⊢
    exact List.length_take_of_le hfits'
  | shrink size =>
    refine keeps_of_backed h (on_shrink ha) (h.resized (Nat.le_trans ha hfits)) ?_
    unfold Op.Turns
    dsimp only
    rw [List.take_take, Nat.min_eq_left ha]
  | expand size =>
    obtain ⟨s', bytes', hs', hb, hr, htake⟩ := h.on_expand ha hn
    refine keeps_of_backed h hs' hb ?_
    have hfits' := hb.fits
    rw [hr.realSize] at hfits' ⊢
    refine ⟨List.length_take_of_le hfits', ?_⟩
    rw [List.length_take_of_le hfits, List.take_take, Nat.min_eq_left ha, htake]
  | write i c =>
    have hi : i < bytes.length := Nat.lt_of_lt_of_le ha hfits
    obtain ⟨s', hs', hb, halike⟩ := h.on_write i [some c] hi
    rw [patch_singleton hi] at hb
    refine keeps_of_backed h hs' hb ?_
    unfold Op.Turns
    dsimp only
    rw [halike.realSize, List.take_set]

/-- What goes wrong, and when. -/
theorem Backed.keeps_iff (h : Backed base s bytes) (ha : op.Allowed s) :
    Keeps base s op ↔ ¬ op.Refills s := by
  constructor
  · intro hk hrefill
    cases op with
    | expand size =>
      obtain ⟨hfull, rfl⟩ := hrefill
      obtain ⟨s', hs', hdead⟩ := h.on_expand_full hfull
      obtain ⟨bytes', hlive, -⟩ := hk.sound.live
      have hs : (Op.call (.expand s.buffer.realSize)).on s = (.ok (), s') := hs'
      rw [hs, hdead] at hlive
      cases hlive
    | _ => exact hrefill
  · exact fun hn => (h.keeps ha hn).1

/-- A whole run, by induction on the operations. -/
theorem Backed.along_iff (h : Backed base s bytes) (ops : List Op)
    (ha : Along (fun s op => op.Allowed s) s ops) :
    Along (Keeps base) s ops ↔ Along (fun s op => ¬ op.Refills s) s ops := by
  induction ops generalizing s bytes with
  | nil => exact Iff.rfl
  | cons op ops ih =>
    obtain ⟨hop, hops⟩ := ha
    unfold Along
    rw [h.keeps_iff hop]
    refine and_congr_right fun hn => ?_
    obtain ⟨bytes', h'⟩ := (h.keeps hop hn).2
    exact ih h' hops

end

end SmartBuffer

end quarkdb
