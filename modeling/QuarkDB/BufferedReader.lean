-- The reader under the parser: a deque of blocks of one size, filled from the
-- link and emptied from the front. Whatever the blocks hold, a consumer sees
-- one string of bytes, as long as an `int` can count them.
import QuarkDB.Bytes

namespace quarkdb

/-! A `LinkStatus` is an `int`: positive if there is something to work on, 0 on a
slow link, negative on an error. -/

/-- What an `int` holds of a number. -/
def toInt (n : Int) : Int := n.bmod (2 ^ 32)

theorem toInt_eq {n : Int} (h : -2 ^ 31 ≤ n) (h' : n < 2 ^ 31) : toInt n = n :=
  Int.bmod_eq_of_le (by omega) (by omega)

theorem toInt_range (n : Int) : -2 ^ 31 ≤ toInt n ∧ toInt n < 2 ^ 31 := by
  have h1 := Int.le_bmod (show 0 < 2 ^ 32 by decide) (x := n)
  have h2 := Int.bmod_lt (show 0 < 2 ^ 32 by decide) (x := n)
  unfold toInt
  omega

/-- A count that runs over becomes less, not more. -/
theorem toInt_le {n : Int} (h : -2 ^ 31 ≤ n) : toInt n ≤ n := by
  have h1 := Int.bmod_add_bdiv n (2 ^ 32)
  have h2 := Int.bmod_lt (show 0 < 2 ^ 32 by decide) (x := n)
  unfold toInt
  omega

/-- The byte '\n'. -/
def newline : UInt8 := 10

/-- The byte '\r'. -/
def carriage : UInt8 := 13

/-! ## Sources of bytes -/

/-- Exactly `len` bytes of a string, or nothing. -/
def pull (len : Int) (s : Bytes) : Int × Bytes × Bytes :=
  if 0 < len ∧ len ≤ s.length then (len, s.take len.toNat, s.drop len.toNat) else (0, [], s)

theorem length_pull_le (len : Int) (s : Bytes) : (pull len s).2.2.length ≤ s.length := by
  unfold pull
  split
  · exact (List.length_drop).trans_le (Nat.sub_le _ _)
  · exact Nat.le_refl _

/-- What a parser can read from: bytes arrive at one end, and `consume` takes them
from the other. -/
class ByteSource (ρ : Type) where
  /-- The bytes that have arrived and that nobody has consumed. -/
  unread : ρ → Bytes
  deliver : Bytes → ρ → ρ
  consume : Int → ρ → Int × Bytes × ρ
  consumePinned : Int → ρ → Int × Bytes × ρ
  unread_deliver : ∀ chunk r, unread (deliver chunk r) = unread r ++ chunk

/-- A string is a source of its own bytes. -/
instance : ByteSource Bytes where
  unread s := s
  deliver chunk s := s ++ chunk
  consume := pull
  consumePinned := pull
  unread_deliver _ _ := rfl

/-- What a source does with its bytes in between does not show: from a source that is `fit`, a
length that is `allowed` is consumed as from the plain string, and the source stays fit. -/
structure Transparent {ρ : Type} [ByteSource ρ] (fit : ρ → Prop) (allowed : Int → Prop) :
    Prop where
  consume : ∀ len r, allowed len → fit r →
    Prod.map id (Prod.map id ByteSource.unread) (ByteSource.consume len r) =
      pull len (ByteSource.unread r) ∧ fit (ByteSource.consume len r).2.2
  consumePinned : ∀ len r, allowed len → fit r →
    Prod.map id (Prod.map id ByteSource.unread) (ByteSource.consumePinned len r) =
      pull len (ByteSource.unread r) ∧ fit (ByteSource.consumePinned len r).2.2

/-! ## The blocks -/

/-- `buffers` is `full`, whose blocks have no room left, and then `last`, with its
bytes up to `position_write`. The blocks of a parser have 32 KiB. -/
structure BufferedReader where
  buffer_size : Nat
  full : List Bytes
  last : Bytes
  position_read : Nat
  /-- The bytes that `Recv` has ready. -/
  link : Bytes
  full_length : ∀ block ∈ full, block.length = buffer_size
  last_length : last.length < buffer_size
  position_read_le : position_read ≤ (full.headD last).length
  buffer_size_le : buffer_size ≤ 2 ^ 15

namespace BufferedReader

/-- The constructor. -/
def onLink (buffer_size : Nat) (h : 0 < buffer_size) (hle : buffer_size ≤ 2 ^ 15) :
    BufferedReader :=
  { buffer_size, full := [], last := [], position_read := 0, link := []
    full_length := by simp, last_length := h, position_read_le := by simp
    buffer_size_le := hle }

/-- The bytes in the blocks, from `position_read` on. -/
def buffered (r : BufferedReader) : Bytes := (r.full.flatten ++ r.last).drop r.position_read

def unread (r : BufferedReader) : Bytes := r.buffered ++ r.link

def deliver (chunk : Bytes) (r : BufferedReader) : BufferedReader :=
  { r with link := r.link ++ chunk }

/-- The link had less than the free space of the last block. -/
def fill (r : BufferedReader) (h : r.link.length < r.buffer_size - r.last.length) :
    BufferedReader :=
  { r with
    last := r.last ++ r.link
    link := []
    last_length := by rw [List.length_append]; omega
    position_read_le := by
      have hp := r.position_read_le
      cases hf : r.full <;> rw [hf] at hp <;> simp only [List.headD_nil, List.headD_cons,
        List.length_append] at hp ⊢ <;> omega }

/-- The link filled the last block, and a new one follows it. -/
def addBlock (r : BufferedReader) (h : r.buffer_size - r.last.length ≤ r.link.length) :
    BufferedReader :=
  { r with
    full := r.full ++ [r.last ++ r.link.take (r.buffer_size - r.last.length)]
    last := []
    link := r.link.drop (r.buffer_size - r.last.length)
    full_length := by
      intro block hb
      rcases List.mem_append.mp hb with hb | hb
      · exact r.full_length block hb
      · have := r.last_length
        rw [List.mem_singleton.mp hb, List.length_append, List.length_take]
        omega
    last_length := by
      have := r.last_length
      simp only [List.length_nil]
      omega
    position_read_le := by
      have hp := r.position_read_le
      cases hf : r.full <;> rw [hf] at hp <;> simp only [List.headD_nil, List.headD_cons,
        List.nil_append, List.cons_append, List.length_append] at hp ⊢ <;> omega }

/-- `readFromLink`, with the bytes read so far. The fuel is the number of blocks that
it may still fill. -/
def readFromLink (limit : Int) : Nat → Int → BufferedReader → Int × BufferedReader
  | 0, total_bytes, r => (total_bytes, r)
  | fuel + 1, total_bytes, r =>
    if h : r.link.length < r.buffer_size - r.last.length then
      (toInt (total_bytes + r.link.length), r.fill h)
    else
      let total_bytes := toInt (total_bytes + (r.buffer_size - r.last.length : Nat))
      let r := r.addBlock (Nat.le_of_not_lt h)
      if toInt limit < total_bytes then (total_bytes, r) else readFromLink limit fuel total_bytes r

/-- A negative length is a `size_t` that no buffer reaches. -/
def canConsume (len : Int) (r : BufferedReader) : Int × BufferedReader :=
  let available_bytes := r.buffered.length
  if 0 ≤ len ∧ len ≤ available_bytes then (toInt available_bytes, r)
  else
    let (rlink, r) := r.readFromLink (len - available_bytes) (r.link.length + 1) 0
    if rlink < 0 then (rlink, r)
    else if 0 ≤ len ∧ len ≤ available_bytes + rlink then (toInt (available_bytes + rlink), r)
    else (0, r)

/-- The loop of `consumeInternal` over the blocks: the bytes it appends, the blocks
that are left, and `position_read`. -/
def consumeBlocks (buffer_size : Nat) (last : Bytes) :
    List Bytes → Nat → Nat → Bytes × List Bytes × Nat
  | [], position_read, remaining =>
    ((last.drop position_read).take remaining, [], position_read + remaining)
  | block :: full, position_read, remaining =>
    if remaining = 0 then ([], block :: full, position_read)
    else
      let available_bytes := min (buffer_size - position_read) remaining
      let part := (block.drop position_read).take available_bytes
      if buffer_size ≤ position_read + available_bytes then
        -- An entire block has been consumed.
        let (str, rest) := consumeBlocks buffer_size last full 0 (remaining - available_bytes)
        (part ++ str, rest)
      else (part, block :: full, position_read + available_bytes)

variable {buffer_size : Nat} {last : Bytes} {full : List Bytes} {position_read remaining : Nat}

theorem consumeBlocks_spec (hfull : ∀ block ∈ full, block.length = buffer_size)
    (hp : position_read ≤ (full.headD last).length)
    (hr : remaining ≤ ((full.flatten ++ last).drop position_read).length) :
    let result := consumeBlocks buffer_size last full position_read remaining
    result.1 = ((full.flatten ++ last).drop position_read).take remaining ∧
      (result.2.1.flatten ++ last).drop result.2.2 =
        ((full.flatten ++ last).drop position_read).drop remaining ∧
      (∀ block ∈ result.2.1, block.length = buffer_size) ∧
      result.2.2 ≤ (result.2.1.headD last).length := by
  induction full generalizing position_read remaining with
  | nil =>
    simp only [List.flatten_nil, List.nil_append, List.length_drop] at hr
    simp only [List.headD_nil] at hp
    simp only [consumeBlocks, List.flatten_nil, List.nil_append, List.headD_nil, true_and,
      List.drop_drop, List.not_mem_nil, false_implies, implies_true]
    omega
  | cons block full ih =>
    have hb : block.length = buffer_size := hfull block (by simp)
    have hrest : ∀ b ∈ full, b.length = buffer_size := fun b h => hfull b (by simp [h])
    simp only [List.headD_cons] at hp
    simp only [List.flatten_cons, List.append_assoc, List.length_drop, List.length_append] at hr
    unfold consumeBlocks
    split
    · next h0 =>
      subst h0
      simpa using ⟨⟨hb, hrest⟩, hp⟩
    · dsimp only
      split
      · next hwhole =>
        -- The read reaches the end of the block, and goes on in the next one.
        have ha : min (buffer_size - position_read) remaining = block.length - position_read := by
          omega
        rw [ha]
        obtain ⟨h1, h2, h3, h4⟩ := @ih 0 (remaining - (block.length - position_read)) hrest
          (Nat.zero_le _) (by simp only [List.drop_zero, List.length_append]; omega)
        rw [List.drop_zero] at h1 h2
        rw [List.flatten_cons, List.append_assoc, List.drop_append_of_le_length hp]
        have hpart : (block.drop position_read).length = block.length - position_read :=
          List.length_drop
        refine ⟨?_, ?_, h3, h4⟩
        · have hlen : (block.drop position_read).length ≤ remaining := by omega
          rw [h1]
          generalize full.flatten ++ last = tail
          rw [List.take_append, List.take_of_length_le hlen, hpart,
            List.take_of_length_le (Nat.le_of_eq hpart)]
        · have hlen : (block.drop position_read).length ≤ remaining := by omega
          rw [h2]
          generalize full.flatten ++ last = tail
          rw [List.drop_append, List.drop_eq_nil_of_le hlen, List.nil_append, hpart]
      · next hpart =>
        have ha : min (buffer_size - position_read) remaining = remaining := by omega
        rw [ha]
        refine ⟨?_, ?_, hfull, ?_⟩
        · rw [List.flatten_cons, List.append_assoc, List.drop_append_of_le_length hp,
            List.take_append_of_le_length (by rw [List.length_drop]; omega)]
        · rw [List.drop_drop]
        · simp only [List.headD_cons]
          omega

/-! ## Filling -/

theorem position_read_le_length (r : BufferedReader) :
    r.position_read ≤ (r.full.flatten ++ r.last).length := by
  have hp := r.position_read_le
  cases hf : r.full <;> rw [hf] at hp <;> simp at hp ⊢ <;> omega

@[simp] theorem buffered_fill (r : BufferedReader)
    (h : r.link.length < r.buffer_size - r.last.length) :
    (r.fill h).buffered = r.buffered ++ r.link := by
  simp only [buffered, fill]
  rw [← List.append_assoc, List.drop_append_of_le_length r.position_read_le_length]

@[simp] theorem buffered_addBlock (r : BufferedReader)
    (h : r.buffer_size - r.last.length ≤ r.link.length) :
    (r.addBlock h).buffered = r.buffered ++ r.link.take (r.buffer_size - r.last.length) := by
  simp only [buffered, addBlock, List.flatten_append, List.flatten_singleton, List.append_nil]
  rw [← List.append_assoc, List.drop_append_of_le_length r.position_read_le_length]

@[simp] theorem link_fill (r : BufferedReader)
    (h : r.link.length < r.buffer_size - r.last.length) : (r.fill h).link = [] := rfl

@[simp] theorem link_addBlock (r : BufferedReader)
    (h : r.buffer_size - r.last.length ≤ r.link.length) :
    (r.addBlock h).link = r.link.drop (r.buffer_size - r.last.length) := rfl

theorem unread_addBlock (r : BufferedReader)
    (h : r.buffer_size - r.last.length ≤ r.link.length) : (r.addBlock h).unread = r.unread := by
  simp only [unread, buffered_addBlock, link_addBlock, List.append_assoc, List.take_append_drop]

theorem length_buffered_addBlock (r : BufferedReader)
    (h : r.buffer_size - r.last.length ≤ r.link.length) :
    (r.addBlock h).buffered.length = r.buffered.length + (r.buffer_size - r.last.length) := by
  rw [buffered_addBlock, List.length_append, List.length_take]
  omega

/-- It moves bytes from the link to the blocks, and never counts more than it moves. -/
theorem readFromLink_moves {limit total_bytes : Int} {fuel : Nat} {r : BufferedReader}
    (hrange : -2 ^ 31 ≤ total_bytes) :
    let result := readFromLink limit fuel total_bytes r
    result.2.unread = r.unread ∧
      r.buffered.length + result.1 ≤ result.2.buffered.length + total_bytes := by
  induction fuel generalizing total_bytes r with
  | zero => exact ⟨rfl, by simp [readFromLink]⟩
  | succ fuel ih =>
    unfold readFromLink
    split
    · next h =>
      have hle := toInt_le (show -2 ^ 31 ≤ total_bytes + r.link.length by omega)
      refine ⟨by simp [unread], ?_⟩
      rw [buffered_fill, List.length_append]
      push_cast
      omega
    · next h =>
      have hle := toInt_le
        (show -2 ^ 31 ≤ total_bytes + (r.buffer_size - r.last.length : Nat) by omega)
      have hlen := r.length_buffered_addBlock (Nat.le_of_not_lt h)
      have hu := r.unread_addBlock (Nat.le_of_not_lt h)
      dsimp only
      split
      · exact ⟨hu, by dsimp only; omega⟩
      · obtain ⟨h1, h2⟩ := @ih _ (r.addBlock (Nat.le_of_not_lt h)) (toInt_range _).1
        exact ⟨h1.trans hu, by omega⟩

/-- The bytes that come in can be counted: there are not so many of them, or the loop ends before
it has read so many. -/
def Countable (limit total_bytes : Int) (r : BufferedReader) : Prop :=
  total_bytes + r.link.length < 2 ^ 31 ∨
    0 ≤ limit ∧ total_bytes ≤ limit ∧ limit + r.buffer_size < 2 ^ 31

/-- It counts what it moves, until there are more than the limit or the link has no more. -/
theorem readFromLink_spec {limit total_bytes : Int} {fuel : Nat} {r : BufferedReader}
    (hfuel : r.link.length < fuel) (h0 : 0 ≤ total_bytes) (hc : Countable limit total_bytes r) :
    let result := readFromLink limit fuel total_bytes r
    0 ≤ result.1 ∧ result.2.buffered.length + total_bytes = r.buffered.length + result.1 ∧
      (toInt limit < result.1 ∨ result.2.link = []) ∧
      (total_bytes ≤ toInt limit → result.1 ≤ toInt limit + r.buffer_size) := by
  induction fuel generalizing total_bytes r with
  | zero => omega
  | succ fuel ih =>
    have hsize := r.buffer_size_le
    unfold readFromLink
    split
    · next h =>
      have heq : toInt (total_bytes + r.link.length) = total_bytes + r.link.length := by
        apply toInt_eq
        · omega
        · rcases hc with hc | hc <;> omega
      rw [heq]
      dsimp only
      rw [buffered_fill, link_fill, List.length_append]
      push_cast
      exact ⟨by omega, by omega, .inr rfl, by omega⟩
    · next h =>
      have hspace := r.last_length
      have heq : toInt (total_bytes + (r.buffer_size - r.last.length : Nat)) =
          total_bytes + (r.buffer_size - r.last.length : Nat) := by
        apply toInt_eq
        · omega
        · rcases hc with hc | hc <;> omega
      have hlen := r.length_buffered_addBlock (Nat.le_of_not_lt h)
      dsimp only
      rw [heq]
      split
      · next hlimit =>
        refine ⟨?_, ?_, .inl hlimit, fun _ => ?_⟩
        · dsimp only
          omega
        · dsimp only
          omega
        · dsimp only
          omega
      · next hlimit =>
        have hlink : (r.addBlock (Nat.le_of_not_lt h)).link.length =
            r.link.length - (r.buffer_size - r.last.length) := by
          rw [link_addBlock, List.length_drop]
        have hsame : (r.addBlock (Nat.le_of_not_lt h)).buffer_size = r.buffer_size := rfl
        obtain ⟨h1, h2, h3, h4⟩ := @ih (total_bytes + (r.buffer_size - r.last.length : Nat))
          (r.addBlock (Nat.le_of_not_lt h)) (by omega) (by omega) (by
            rcases hc with hc | ⟨hc0, hc1, hc2⟩
            · exact .inl (by omega)
            · refine .inr ⟨hc0, ?_, hc2⟩
              rw [toInt_eq (by omega) (by omega)] at hlimit
              omega)
        exact ⟨h1, by omega, h3, fun _ => h4 (by omega)⟩

/-- What is asked for can be counted: all bytes together, or what the blocks have and the length,
with a block more. -/
def Asks (len : Int) (r : BufferedReader) : Prop :=
  len < 2 ^ 31 ∧ r.unread.length < 2 ^ 31 ∨
    0 ≤ len ∧ len + 2 ^ 15 < 2 ^ 31 ∧ r.buffered.length < 2 ^ 31

theorem length_unread (r : BufferedReader) :
    r.unread.length = r.buffered.length + r.link.length := List.length_append

/-- `canConsume` says if the blocks hold that many bytes by now, and they do whenever
the blocks and the link together have them. -/
theorem canConsume_spec {len : Int} {r : BufferedReader} (ha : Asks len r) :
    let result := r.canConsume len
    result.2.unread = r.unread ∧
      (result.1 = 0 ∧ (len ≤ 0 ∨ (r.unread.length : Int) < len) ∨
        0 < result.1 ∧ 0 ≤ len ∧ len ≤ result.2.buffered.length) ∧
      (len + 2 ^ 15 < 2 ^ 31 → r.buffered.length < 2 ^ 31 → 0 ≤ len →
        result.2.buffered.length < 2 ^ 31) := by
  have hu := r.length_unread
  have hsize := r.buffer_size_le
  unfold canConsume
  dsimp only
  split
  · have heq : toInt r.buffered.length = r.buffered.length := by
      apply toInt_eq
      · omega
      · rcases ha with ha | ha <;> omega
    rw [heq]
    exact ⟨rfl, by dsimp only; omega, fun _ h _ => h⟩
  · next hfew =>
    have hmoves := @readFromLink_moves (len - r.buffered.length) 0 (r.link.length + 1) r (by omega)
    have hc : Countable (len - r.buffered.length) 0 r := by
      unfold Countable
      rcases ha with ha | ha
      · exact .inl (by omega)
      · exact .inr ⟨by omega, by omega, by omega⟩
    have hspec := @readFromLink_spec (len - r.buffered.length) 0 (r.link.length + 1) r
      (Nat.lt_add_one _) (Int.le_refl 0) hc
    dsimp only at hmoves hspec
    generalize r.readFromLink (len - r.buffered.length) (r.link.length + 1) 0 = read at *
    obtain ⟨rlink, r'⟩ := read
    dsimp only at hmoves hspec ⊢
    obtain ⟨h1, h2, h3, h4⟩ := hspec
    have hu' := congrArg List.length hmoves.1
    rw [length_unread] at hu'
    have hlimit : 0 ≤ len → toInt (len - r.buffered.length) = len - r.buffered.length := by
      intro h0
      apply toInt_eq
      · omega
      · rcases ha with ha | ha <;> omega
    rw [if_neg (by omega)]
    split
    · next henough =>
      rw [hlimit henough.1] at h3 h4
      have heq : toInt (r.buffered.length + rlink) = r.buffered.length + rlink := by
        apply toInt_eq
        · omega
        · rcases ha with ha | ha <;> omega
      rw [heq]
      exact ⟨hmoves.1, by dsimp only; omega, fun _ _ _ => by dsimp only; omega⟩
    · refine ⟨hmoves.1, .inl ⟨rfl, ?_⟩, ?_⟩
      · rcases h3 with h3 | h3
        · by_cases h0 : 0 ≤ len
          · rw [hlimit h0] at h3
            omega
          · omega
        · rw [h3, List.length_nil] at hu'
          omega
      · intro hlen _ h0
        rw [hlimit h0] at h4
        dsimp only
        omega

/-- A positive status is never more than the blocks have, even if the count ran over. -/
theorem canConsume_enough {len : Int} {r : BufferedReader} (h : ¬ (r.canConsume len).1 ≤ 0) :
    len.toNat ≤ (r.canConsume len).2.buffered.length := by
  have hmoves := @readFromLink_moves (len - r.buffered.length) 0 (r.link.length + 1) r (by omega)
  dsimp only at hmoves
  unfold canConsume at h ⊢
  dsimp only at h ⊢
  split
  · dsimp only
    omega
  · next hfew =>
    rw [if_neg hfew] at h
    split at h
    · dsimp only at h
      omega
    · next hneg =>
      rw [if_neg hneg]
      split at h
      · next henough =>
        rw [if_pos henough]
        dsimp only
        omega
      · exact absurd (le_refl 0) h

/-! ## Reading -/

/-- `consumeInternal`, for a length that the blocks hold. -/
def consumeInternal (len : Nat) (r : BufferedReader) (h : len ≤ r.buffered.length) :
    Int × Bytes × BufferedReader :=
  let result := consumeBlocks r.buffer_size r.last r.full r.position_read len
  (len, result.1, { r with
    full := result.2.1
    position_read := result.2.2
    full_length := (consumeBlocks_spec r.full_length r.position_read_le h).2.2.1
    position_read_le := (consumeBlocks_spec r.full_length r.position_read_le h).2.2.2 })

theorem fast_path_le {len : Nat} {r : BufferedReader} (h : len ≤ r.buffered.length)
    (hfast : len ≤ r.buffer_size - r.position_read) :
    len ≤ ((r.full.headD r.last).drop r.position_read).length := by
  have hp := r.position_read_le
  have hl := r.full_length
  rw [buffered] at h
  cases hf : r.full <;> rw [hf] at hp h hl <;> simp at hp h hl ⊢ <;> omega

/-- `consume` into a `std::string`. -/
def consume (len : Int) (r : BufferedReader) : Int × Bytes × BufferedReader :=
  if h : (r.canConsume len).1 ≤ 0 then ((r.canConsume len).1, [], (r.canConsume len).2)
  else (r.canConsume len).2.consumeInternal len.toNat (canConsume_enough h)

/-- The fast path: the bytes stay where they are, in the first block. -/
def pinFront (len : Nat) (r : BufferedReader)
    (h : len ≤ ((r.full.headD r.last).drop r.position_read).length) :
    Int × Bytes × BufferedReader :=
  (len, ((r.full.headD r.last).drop r.position_read).take len, { r with
    position_read := r.position_read + len
    position_read_le := by
      have hp := r.position_read_le
      rw [List.length_drop] at h
      omega })

/-- `consume` into a `PinnedBuffer`. -/
def consumePinned (len : Int) (r : BufferedReader) : Int × Bytes × BufferedReader :=
  if h : (r.canConsume len).1 ≤ 0 then ((r.canConsume len).1, [], (r.canConsume len).2)
  else if hfast : len.toNat ≤
      (r.canConsume len).2.buffer_size - (r.canConsume len).2.position_read then
    (r.canConsume len).2.pinFront len.toNat (fast_path_le (canConsume_enough h) hfast)
  else (r.canConsume len).2.consumeInternal len.toNat (canConsume_enough h)

theorem consumeInternal_unread {len : Nat} {r : BufferedReader} (h : len ≤ r.buffered.length) :
    Prod.map id (Prod.map id unread) (r.consumeInternal len h) =
      ((len : Int), r.unread.take len, r.unread.drop len) := by
  obtain ⟨h1, h2, -, -⟩ := consumeBlocks_spec r.full_length r.position_read_le h
  simp only [consumeInternal, unread, buffered, Prod.map, id]
  rw [h1, h2, ← buffered, List.take_append_of_le_length h, List.drop_append_of_le_length h]

/-- The first block is the head of what is buffered. -/
theorem front_of_buffered (r : BufferedReader) :
    ∃ tail, r.buffered = (r.full.headD r.last).drop r.position_read ++ tail := by
  have hp := r.position_read_le
  cases hf : r.full with
  | nil => exact ⟨[], by simp [buffered, hf]⟩
  | cons block full =>
    rw [hf, List.headD_cons] at hp
    refine ⟨full.flatten ++ r.last, ?_⟩
    rw [buffered, hf, List.flatten_cons, List.append_assoc, List.headD_cons,
      List.drop_append_of_le_length hp]

theorem pinFront_unread {len : Nat} {r : BufferedReader}
    (h : len ≤ ((r.full.headD r.last).drop r.position_read).length) :
    Prod.map id (Prod.map id unread) (r.pinFront len h) =
      ((len : Int), r.unread.take len, r.unread.drop len) := by
  obtain ⟨tail, htail⟩ := r.front_of_buffered
  have hb : len ≤ r.buffered.length := by
    rw [htail, List.length_append]
    omega
  have hstr : r.unread.take len = ((r.full.headD r.last).drop r.position_read).take len := by
    rw [unread, List.take_append_of_le_length hb, htail, List.take_append_of_le_length h]
  have hrest : (r.pinFront len h).2.2.unread = r.unread.drop len := by
    rw [unread, unread, List.drop_append_of_le_length hb, buffered, buffered, List.drop_drop]
    rfl
  rw [hstr, ← hrest]
  rfl

/-- What a consumer gets, and what is left, are those of the plain string. -/
theorem pull_of_canConsume {len : Int} {r : BufferedReader} (ha : Asks len r)
    (h : ¬ (r.canConsume len).1 ≤ 0) :
    pull len r.unread = (((len.toNat : Nat) : Int), (r.canConsume len).2.unread.take len.toNat,
      (r.canConsume len).2.unread.drop len.toNat) := by
  obtain ⟨hu, hs, -⟩ := canConsume_spec ha
  have hlen := congrArg List.length hu
  rw [unread, List.length_append] at hlen
  rw [hu, pull]
  split
  · rw [Int.toNat_of_nonneg (by omega)]
  · have h0 : len = 0 := by omega
    simp [h0]

theorem pull_of_cannot {len : Int} {r : BufferedReader} (ha : Asks len r)
    (h : (r.canConsume len).1 ≤ 0) :
    ((r.canConsume len).1, [], (r.canConsume len).2.unread) = pull len r.unread := by
  obtain ⟨hu, hs, -⟩ := canConsume_spec ha
  have hno : ¬ (0 < len ∧ len ≤ r.unread.length) := by omega
  have h0 : (r.canConsume len).1 = 0 := by omega
  rw [pull, if_neg hno, hu, h0]

theorem consume_unread {len : Int} {r : BufferedReader} (ha : Asks len r) :
    Prod.map id (Prod.map id unread) (r.consume len) = pull len r.unread := by
  unfold consume
  split
  · next h => exact pull_of_cannot ha h
  · next h => rw [consumeInternal_unread, pull_of_canConsume ha h]

theorem consumePinned_unread {len : Int} {r : BufferedReader} (ha : Asks len r) :
    Prod.map id (Prod.map id unread) (r.consumePinned len) = pull len r.unread := by
  unfold consumePinned
  split
  · next h => exact pull_of_cannot ha h
  · next h =>
    split
    · rw [pinFront_unread, pull_of_canConsume ha h]
    · rw [consumeInternal_unread, pull_of_canConsume ha h]

instance : ByteSource BufferedReader where
  unread := unread
  deliver := deliver
  consume := consume
  consumePinned := consumePinned
  unread_deliver chunk r := by simp [unread, deliver, buffered]

/-! ## What an `int` can count -/

/-- A length that an `int` counts with a block more. -/
def Askable (len : Int) : Prop := 0 ≤ len ∧ len + 2 ^ 15 < 2 ^ 31

/-- Less than 2 GiB in all. -/
theorem transparent_short {total : Nat} (h : total ≤ 2 ^ 31) :
    Transparent (ρ := BufferedReader) (fun r => r.unread.length < total) (· < 2 ^ 31) := by
  constructor
  · intro len r hl hr
    have heq := consume_unread (.inl ⟨hl, by omega⟩ : Asks len r)
    refine ⟨heq, ?_⟩
    have hu : (r.consume len).2.2.unread = (pull len r.unread).2.2 :=
      congrArg (fun result => result.2.2) heq
    show (r.consume len).2.2.unread.length < total
    rw [hu]
    exact (length_pull_le len r.unread).trans_lt hr
  · intro len r hl hr
    have heq := consumePinned_unread (.inl ⟨hl, by omega⟩ : Asks len r)
    refine ⟨heq, ?_⟩
    have hu : (r.consumePinned len).2.2.unread = (pull len r.unread).2.2 :=
      congrArg (fun result => result.2.2) heq
    show (r.consumePinned len).2.2.unread.length < total
    rw [hu]
    exact (length_pull_le len r.unread).trans_lt hr

theorem buffered_consumeInternal {len : Nat} {r : BufferedReader} (h : len ≤ r.buffered.length) :
    (r.consumeInternal len h).2.2.buffered = r.buffered.drop len :=
  (consumeBlocks_spec r.full_length r.position_read_le h).2.1

theorem buffered_pinFront {len : Nat} {r : BufferedReader}
    (h : len ≤ ((r.full.headD r.last).drop r.position_read).length) :
    (r.pinFront len h).2.2.buffered = r.buffered.drop len := by
  rw [buffered, buffered, List.drop_drop]
  rfl

/-- Any number of bytes on the link, if less than 2 GiB are asked for at once. -/
theorem transparent_small :
    Transparent (ρ := BufferedReader) (fun r => r.buffered.length < 2 ^ 31) Askable := by
  constructor
  · intro len r hl hr
    have ha : Asks len r := .inr ⟨hl.1, hl.2, hr⟩
    have hkept := (canConsume_spec ha).2.2 hl.2 hr hl.1
    refine ⟨consume_unread ha, ?_⟩
    show (r.consume len).2.2.buffered.length < 2 ^ 31
    unfold consume
    split
    · exact hkept
    · rw [buffered_consumeInternal, List.length_drop]
      omega
  · intro len r hl hr
    have ha : Asks len r := .inr ⟨hl.1, hl.2, hr⟩
    have hkept := (canConsume_spec ha).2.2 hl.2 hr hl.1
    refine ⟨consumePinned_unread ha, ?_⟩
    show (r.consumePinned len).2.2.buffered.length < 2 ^ 31
    unfold consumePinned
    split
    · exact hkept
    split
    · rw [buffered_pinFront, List.length_drop]
      omega
    · rw [buffered_consumeInternal, List.length_drop]
      omega

end BufferedReader

end quarkdb
