-- The reader down to its memory: regions that are written behind what pinned buffers show of
-- them, reads from the link of any size, and counts of bytes that are ints. What it gives out is
-- the stream of bytes, and stays what it was.
import QuarkDB.BufferedReader

namespace quarkdb

namespace Pinned

/-! ## The link -/

/-- What one read from the link gives. -/
inductive Received
  | bytes (data : Bytes)
  /-- A negative status. -/
  | error (code : Nat)
  deriving DecidableEq

/-- A read into a space of so many bytes: its status, and the bytes. What has no space is left for
the next read. -/
def recv (blen : Int) : List Received → Int × Bytes × List Received
  | [] => (0, [], [])
  | .error code :: link => (-(code + 1), [], link)
  | .bytes data :: link =>
    if data.length ≤ blen then (data.length, data, link)
    else
      ((data.take blen.toNat).length, data.take blen.toNat,
        .bytes (data.drop blen.toNat) :: link)

/-- All bytes that the link gives. -/
def bytesOf : List Received → Bytes
  | [] => []
  | .bytes data :: link => data ++ bytesOf link
  | .error _ :: link => bytesOf link

/-! ## The reader -/

/-- The regions are `released`, `full` and `last`: `buffers` has those that were not popped, and
the last of them is written to. A region that was popped lives on in the buffers that are pinned
to it. -/
structure BufferedReader where
  buffer_size : Nat
  released : List Bytes
  full : List Bytes
  last : Bytes
  position_read : Nat
  position_write : Nat
  link : List Received

/-- A part of a region, or a string of its own. -/
inductive PinnedBuffer
  | region (index offset size : Nat)
  | internal (bytes : Bytes)
  deriving DecidableEq

def PinnedBuffer.sv (regions : List Bytes) : PinnedBuffer → Bytes
  | .region index offset size => ((regions.getD index []).drop offset).take size
  | .internal bytes => bytes

/-- Bytes are written into a region from a position on. -/
def write (region : Bytes) (position : Nat) (data : Bytes) : Bytes :=
  region.take position ++ data ++ region.drop (position + data.length)

namespace BufferedReader

/-- The constructor. -/
def onLink (buffer_size : Nat) (link : List Received) : BufferedReader :=
  { buffer_size, released := [], full := [], last := List.replicate buffer_size 0
    position_read := 0, position_write := 0, link }

def regions (r : BufferedReader) : List Bytes := r.released ++ r.full ++ [r.last]

/-- The loop of `readFromLink`; nothing, if it goes on after so many reads. -/
def readFromLink (limit : Int) : Nat → Int → BufferedReader → Option (Int × BufferedReader)
  | 0, _, _ => none
  | reads + 1, total_bytes, r =>
    let available_space := toInt (r.buffer_size - r.position_write : Nat)
    let (rlen, data, link) := recv available_space r.link
    if rlen < 0 then some (rlen, { r with link })
    else
      let total_bytes := toInt (total_bytes + rlen)
      let last := write r.last r.position_write data
      if rlen < available_space then
        some (total_bytes,
          { r with last, link, position_write := r.position_write + rlen.toNat })
      else
        let r := { r with
          full := r.full ++ [last]
          last := List.replicate r.buffer_size 0
          link
          position_write := 0 }
        if toInt limit < total_bytes then some (total_bytes, r)
        else readFromLink limit reads total_bytes r

def available_bytes (r : BufferedReader) : Nat :=
  (r.full.length + 1) * r.buffer_size - r.position_read - (r.buffer_size - r.position_write)

def canConsume (len : Nat) (r : BufferedReader) : Option (Int × BufferedReader) :=
  if len ≤ r.available_bytes then some (toInt r.available_bytes, r)
  else
    -- Every read but the last takes a byte at least.
    (readFromLink (len - r.available_bytes : Nat) ((bytesOf r.link).length + 1) 0 r).map fun read =>
      if read.1 < 0 then read
      else if len ≤ r.available_bytes + read.1 then (toInt (r.available_bytes + read.1), read.2)
      else (0, read.2)

/-- `consumeInternal`: what was consumed of the regions is popped. -/
def consumeInternal (len : Nat) (r : BufferedReader) : Bytes × BufferedReader :=
  let (str, full, position_read) :=
    quarkdb.BufferedReader.consumeBlocks r.buffer_size r.last r.full r.position_read len
  (str, { r with
    released := r.released ++ r.full.take (r.full.length - full.length)
    full
    position_read })

/-- `consume` into a `std::string`. -/
def consume (len : Nat) (r : BufferedReader) : Option (Int × PinnedBuffer × BufferedReader) :=
  (r.canConsume len).map fun ready =>
    if ready.1 ≤ 0 then (ready.1, .internal [], ready.2)
    else (toInt len, .internal (ready.2.consumeInternal len).1, (ready.2.consumeInternal len).2)

/-- `consume` into a `PinnedBuffer`. -/
def consumePinned (len : Nat) (r : BufferedReader) :
    Option (Int × PinnedBuffer × BufferedReader) :=
  (r.canConsume len).map fun ready =>
    if ready.1 ≤ 0 then (ready.1, .internal [], ready.2)
    else if len ≤ ready.2.buffer_size - ready.2.position_read then
      -- The bytes stay where they are, in the first region.
      (toInt len, .region ready.2.released.length ready.2.position_read len,
        { ready.2 with position_read := ready.2.position_read + len })
    else (toInt len, .internal (ready.2.consumeInternal len).1, (ready.2.consumeInternal len).2)

end BufferedReader

/-- One of the two overloads. -/
inductive ReadCall
  | string (len : Nat)
  | pinned (len : Nat)

def ReadCall.len : ReadCall → Nat
  | .string len => len
  | .pinned len => len

/-- The lengths that are asked for. -/
def ReadCall.Asked (c : ReadCall) : Prop := 1 ≤ c.len ∧ c.len ≤ 2 ^ 30

instance (c : ReadCall) : Decidable c.Asked := inferInstanceAs (Decidable (_ ∧ _))

namespace BufferedReader

def perform (r : BufferedReader) : ReadCall → Option (Int × PinnedBuffer × BufferedReader)
  | .string len => r.consume len
  | .pinned len => r.consumePinned len

/-- The statuses of the calls, and what they give out. -/
def performAll (r : BufferedReader) : List ReadCall →
    Option (List (Int × PinnedBuffer) × BufferedReader)
  | [] => some ([], r)
  | c :: calls =>
    (r.perform c).bind fun done =>
      (done.2.2.performAll calls).map fun rest => ((done.1, done.2.1) :: rest.1, rest.2)

/-! ## What is in the reader -/

/-- The bytes that wait to be consumed. -/
def contents (r : BufferedReader) : Bytes :=
  ((r.full.flatten ++ r.last).drop r.position_read).take r.available_bytes

/-- The bytes that nobody has consumed. -/
def stream (r : BufferedReader) : Bytes := r.contents ++ bytesOf r.link

structure Inv (r : BufferedReader) : Prop where
  full_length : ∀ region ∈ r.full, region.length = r.buffer_size
  last_length : r.last.length = r.buffer_size
  position_write_lt : r.position_write < r.buffer_size
  position_read_le : r.position_read ≤ if r.full = [] then r.position_write else r.buffer_size

/-- The part of a region has been written. -/
def Written (r : BufferedReader) : PinnedBuffer → Prop
  | .region index offset size =>
    index < r.released.length + r.full.length ∧ offset + size ≤ r.buffer_size ∨
      index = r.released.length + r.full.length ∧ offset + size ≤ r.position_write
  | .internal _ => True

/-- Whatever was pinned is written still, and shows the same bytes. -/
structure Keeps (r r' : BufferedReader) : Prop where
  size : r'.buffer_size = r.buffer_size
  buffer : ∀ buf, r.Written buf → r'.Written buf ∧ buf.sv r'.regions = buf.sv r.regions

theorem Keeps.refl (r : BufferedReader) : Keeps r r := ⟨rfl, fun _ h => ⟨h, rfl⟩⟩

theorem Keeps.trans {r r' r'' : BufferedReader} (h : Keeps r r') (h' : Keeps r' r'') :
    Keeps r r'' := by
  refine ⟨h'.size.trans h.size, fun buf hb => ?_⟩
  obtain ⟨hw, hs⟩ := h.buffer buf hb
  obtain ⟨hw', hs'⟩ := h'.buffer buf hw
  exact ⟨hw', hs'.trans hs⟩

/-! ## Reading from the link -/

section

variable {r : BufferedReader} {len : Nat}

/-- A read gives an error, or bytes that the link has, as many as there is space for. -/
theorem recv_cases (blen : Nat) (link : List Received) :
    (∃ (code : Nat) (rest : List Received), recv blen link = (-(code + 1 : Int), [], rest) ∧
      bytesOf rest = bytesOf link ∧ .error code ∈ link ∧
      ∀ code, .error code ∈ rest → .error code ∈ link) ∨
    ∃ (data : Bytes) (rest : List Received),
      recv blen link = ((data.length : Int), data, rest) ∧ data.length ≤ blen ∧
      data ++ bytesOf rest = bytesOf link ∧ ∀ code, .error code ∈ rest → .error code ∈ link := by
  cases link with
  | nil => exact .inr ⟨[], [], rfl, Nat.zero_le _, rfl, fun _ h => h⟩
  | cons first link =>
    cases first with
    | error code =>
      exact .inl ⟨code, link, rfl, rfl, List.mem_cons_self, fun _ h => List.mem_cons_of_mem _ h⟩
    | bytes data =>
      right
      by_cases h : data.length ≤ blen
      · refine ⟨data, link, ?_, h, rfl, fun code hc => List.mem_cons_of_mem _ hc⟩
        rw [recv, if_pos (by exact_mod_cast h)]
      · refine ⟨data.take blen, .bytes (data.drop blen) :: link, ?_, ?_, ?_, fun code hc => ?_⟩
        · rw [recv, if_neg (by exact_mod_cast h), Int.toNat_natCast]
        · exact List.length_take_le _ _
        · rw [bytesOf, bytesOf, ← List.append_assoc, List.take_append_drop]
        · rcases List.mem_cons.mp hc with he | hc
          · cases he
          · exact List.mem_cons_of_mem _ hc

/-- All bytes that the link has are ready in one piece. -/
def AtOnce (link : List Received) : Prop := link = [] ∨ ∃ data, link = [.bytes data]

/-- A read from such a link takes all bytes, or as many as there is space for. -/
theorem recv_atOnce (blen : Nat) {link : List Received} (h : AtOnce link) :
    ∃ (data : Bytes) (rest : List Received),
      recv blen link = ((data.length : Int), data, rest) ∧ AtOnce rest ∧
      (data.length = blen ∨ rest = []) := by
  rcases h with rfl | ⟨data, rfl⟩
  · exact ⟨[], [], rfl, .inl rfl, .inr rfl⟩
  by_cases hle : data.length ≤ blen
  · exact ⟨data, [], by rw [recv, if_pos (by exact_mod_cast hle)], .inl rfl, .inr rfl⟩
  · refine ⟨data.take blen, [.bytes (data.drop blen)], ?_, .inr ⟨_, rfl⟩, .inl ?_⟩
    · rw [recv, if_neg (by exact_mod_cast hle), Int.toNat_natCast]
    · rw [List.length_take]
      omega

theorem length_write {region data : Bytes} {position : Nat}
    (h : position + data.length ≤ region.length) : (write region position data).length =
      region.length := by
  simp only [write, List.length_append, List.length_take, List.length_drop]
  omega

/-- What was written before stays. -/
theorem take_write {region data : Bytes} {position : Nat}
    (h : position + data.length ≤ region.length) :
    (write region position data).take (position + data.length) = region.take position ++ data := by
  have hlen : (region.take position ++ data).length = position + data.length := by
    rw [List.length_append, List.length_take]
    omega
  rw [write, ← hlen, List.take_left]

theorem part_write {region data : Bytes} {position offset size : Nat}
    (h : position ≤ region.length) (hle : offset + size ≤ position) :
    ((write region position data).drop offset).take size = (region.drop offset).take size := by
  have hlen : (region.take position).length = position := by
    rw [List.length_take]
    omega
  have hsplit : ∀ tail : Bytes, ((region.take position ++ tail).drop offset).take size =
      ((region.take position).drop offset).take size := by
    intro tail
    rw [List.drop_append_of_le_length (by omega),
      List.take_append_of_le_length (by rw [List.length_drop]; omega)]
  have hregion := hsplit (region.drop position)
  rw [List.take_append_drop] at hregion
  rw [hregion, write, List.append_assoc]
  exact hsplit _

theorem length_flatten_of_forall {size : Nat} {full : List Bytes}
    (h : ∀ region ∈ full, region.length = size) : full.flatten.length = full.length * size := by
  induction full with
  | nil => simp
  | cons region full ih =>
    rw [List.flatten_cons, List.length_append, h region List.mem_cons_self,
      ih fun b hb => h b (List.mem_cons_of_mem _ hb), List.length_cons, Nat.succ_mul]
    omega

theorem length_flatten_full (h : r.Inv) :
    r.full.flatten.length = r.full.length * r.buffer_size :=
  length_flatten_of_forall h.full_length

/-- The positions lie within the regions. -/
theorem position_bounds (h : r.Inv) :
    r.position_read ≤ r.full.length * r.buffer_size + r.position_write ∧
      r.available_bytes = r.full.length * r.buffer_size + r.position_write - r.position_read := by
  have hw := h.position_write_lt
  have hr := h.position_read_le
  have hle : r.position_read ≤ r.full.length * r.buffer_size + r.position_write := by
    cases hf : r.full with
    | nil =>
      rw [hf, if_pos rfl] at hr
      rw [List.length_nil]
      omega
    | cons region full =>
      rw [hf, if_neg (List.cons_ne_nil _ _)] at hr
      rw [List.length_cons, Nat.succ_mul]
      omega
  refine ⟨hle, ?_⟩
  unfold available_bytes
  rw [Nat.succ_mul]
  omega

theorem length_contents (h : r.Inv) : r.contents.length = r.available_bytes := by
  obtain ⟨h1, h2⟩ := position_bounds h
  have hw := h.position_write_lt
  rw [contents, List.length_take, List.length_drop, List.length_append, length_flatten_full h,
    h.last_length]
  omega

/-- The contents are the full regions, and what was written to the last. -/
theorem contents_eq (h : r.Inv) :
    r.contents = (r.full.flatten ++ r.last.take r.position_write).drop r.position_read := by
  obtain ⟨h1, h2⟩ := position_bounds h
  have hw := h.position_write_lt
  have hl := length_flatten_full h
  rw [contents, List.take_drop, h2,
    show r.position_read + (r.full.length * r.buffer_size + r.position_write - r.position_read) =
      r.full.flatten.length + r.position_write by omega, List.take_length_add_append]

/-- Bytes of the link have come to the end of the contents. -/
structure Took (r r' : BufferedReader) (data : Bytes) : Prop where
  inv : r'.Inv
  keeps : Keeps r r'
  contents : r'.contents = r.contents ++ data
  link : data ++ bytesOf r'.link = bytesOf r.link
  errors : ∀ code, .error code ∈ r'.link → .error code ∈ r.link

theorem Took.trans {r r' r'' : BufferedReader} {data data' : Bytes} (h : Took r r' data)
    (h' : Took r' r'' data') : Took r r'' (data ++ data') := by
  refine ⟨h'.inv, h.keeps.trans h'.keeps, ?_, ?_, fun code hc => h.errors code (h'.errors code hc)⟩
  · rw [h'.contents, h.contents, List.append_assoc]
  · rw [List.append_assoc, h'.link, h.link]

theorem Took.stream {r r' : BufferedReader} {data : Bytes} (h : Took r r' data) :
    r'.stream = r.stream := by
  rw [BufferedReader.stream, BufferedReader.stream, h.contents, ← h.link, List.append_assoc]

theorem getD_regions_lt {index : Nat} (h : index < r.released.length + r.full.length) :
    r.regions.getD index [] = (r.released ++ r.full).getD index [] := by
  unfold regions
  exact List.getD_append _ _ _ _ (by rw [List.length_append]; exact h)

theorem getD_regions_last :
    r.regions.getD (r.released.length + r.full.length) [] = r.last := by
  unfold regions
  rw [← List.length_append, List.getD_append_right _ _ _ _ (le_refl _), Nat.sub_self]
  rfl

/-- What changes the regions only behind what was written of the last one. -/
theorem keeps_of_regions {r r' : BufferedReader} (hsize : r'.buffer_size = r.buffer_size)
    (hlt : ∀ index < r.released.length + r.full.length,
      r'.regions.getD index [] = r.regions.getD index [])
    (hlast : ∀ offset size, offset + size ≤ r.position_write →
      ((r'.regions.getD (r.released.length + r.full.length) []).drop offset).take size =
        (r.last.drop offset).take size)
    (hwritten : ∀ buf, r.Written buf → r'.Written buf) : Keeps r r' := by
  refine ⟨hsize, fun buf hb => ⟨hwritten buf hb, ?_⟩⟩
  cases buf with
  | internal bytes => rfl
  | region index offset size =>
    rcases hb with ⟨hi, -⟩ | ⟨rfl, hle⟩
    · rw [PinnedBuffer.sv, PinnedBuffer.sv, hlt index hi]
    · rw [PinnedBuffer.sv, PinnedBuffer.sv, hlast offset size hle, getD_regions_last]

/-- A read that leaves space in the last region. -/
theorem took_fill {data : Bytes} {link : List Received} (h : r.Inv)
    (hroom : r.position_write + data.length < r.buffer_size)
    (hlink : data ++ bytesOf link = bytesOf r.link)
    (herrors : ∀ code, .error code ∈ link → .error code ∈ r.link) :
    Took r { r with
      last := write r.last r.position_write data
      link
      position_write := r.position_write + data.length } data := by
  have hlast : r.position_write + data.length ≤ r.last.length := by
    rw [h.last_length]
    omega
  have hle : r.position_read ≤ (r.full.flatten ++ r.last.take r.position_write).length := by
    rw [List.length_append, length_flatten_full h, List.length_take]
    have := (position_bounds h).1
    omega
  have hinv : Inv { r with
      last := write r.last r.position_write data
      link
      position_write := r.position_write + data.length } := by
    refine ⟨h.full_length, (length_write hlast).trans h.last_length, hroom, ?_⟩
    have hp := h.position_read_le
    dsimp only
    split at hp
    · rename_i hf
      rw [if_pos hf]
      omega
    · rename_i hf
      rw [if_neg hf]
      exact hp
  refine ⟨hinv, keeps_of_regions rfl (fun index hi => ?_) (fun offset size hle => ?_)
    (fun buf hb => ?_), ?_, hlink, herrors⟩
  · rw [getD_regions_lt hi]
    exact getD_regions_lt (r := { r with
      last := write r.last r.position_write data
      link
      position_write := r.position_write + data.length }) hi
  · have hg := getD_regions_last (r := { r with
      last := write r.last r.position_write data
      link
      position_write := r.position_write + data.length })
    rw [hg]
    exact part_write (by omega) hle
  · cases buf with
    | internal bytes => trivial
    | region index offset size =>
      refine hb.imp_right fun hb => ⟨hb.1, ?_⟩
      exact le_trans hb.2 (Nat.le_add_right _ _)
  · rw [contents_eq hinv, contents_eq h]
    dsimp only
    rw [take_write hlast, ← List.append_assoc, List.drop_append_of_le_length hle]

/-- A read that leaves no space, so that a new region follows. -/
theorem took_region {data : Bytes} {link : List Received} (h : r.Inv)
    (hroom : r.position_write + data.length = r.buffer_size)
    (hlink : data ++ bytesOf link = bytesOf r.link)
    (herrors : ∀ code, .error code ∈ link → .error code ∈ r.link) :
    Took r { r with
      full := r.full ++ [write r.last r.position_write data]
      last := List.replicate r.buffer_size 0
      link
      position_write := 0 } data := by
  have hlast : r.position_write + data.length ≤ r.last.length := by
    rw [h.last_length]
    omega
  have hwrite : write r.last r.position_write data = r.last.take r.position_write ++ data := by
    rw [← take_write hlast, hroom, ← h.last_length, ← length_write hlast, List.take_length]
  have hle : r.position_read ≤ (r.full.flatten ++ r.last.take r.position_write).length := by
    rw [List.length_append, length_flatten_full h, List.length_take]
    have := (position_bounds h).1
    omega
  have hinv : Inv { r with
      full := r.full ++ [write r.last r.position_write data]
      last := List.replicate r.buffer_size 0
      link
      position_write := 0 } := by
    refine ⟨fun region hm => ?_, List.length_replicate, ?_, ?_⟩
    · rcases List.mem_append.mp hm with hm | hm
      · exact h.full_length region hm
      · rw [List.mem_singleton.mp hm, length_write hlast, h.last_length]
    · exact lt_of_le_of_lt (Nat.zero_le _) h.position_write_lt
    · have hp := h.position_read_le
      have hw := h.position_write_lt
      dsimp only
      rw [if_neg (by simp)]
      split at hp <;> omega
  refine ⟨hinv, keeps_of_regions rfl (fun index hi => ?_) (fun offset size hle => ?_)
    (fun buf hb => ?_), ?_, hlink, herrors⟩
  · rw [getD_regions_lt hi]
    unfold regions
    dsimp only
    rw [List.append_assoc, ← List.append_assoc, ← List.append_assoc, List.append_assoc _ [_] [_]]
    exact List.getD_append _ _ _ _ (by rw [List.length_append]; exact hi)
  · have hget : (r.released ++ (r.full ++ [write r.last r.position_write data]) ++
        [List.replicate r.buffer_size 0]).getD (r.released.length + r.full.length) [] =
        write r.last r.position_write data := by
      rw [← List.append_assoc, List.append_assoc _ [_] [_], ← List.length_append,
        List.getD_append_right _ _ _ _ (le_refl _), Nat.sub_self]
      rfl
    unfold regions
    dsimp only
    rw [hget]
    exact part_write (by omega) hle
  · cases buf with
    | internal bytes => trivial
    | region index offset size =>
      left
      show index < r.released.length + (r.full ++ [_]).length ∧ offset + size ≤ r.buffer_size
      have hw := h.position_write_lt
      rw [List.length_append, List.length_singleton]
      rcases hb with ⟨h1, h2⟩ | ⟨h1, h2⟩ <;> omega
  · rw [contents_eq hinv, contents_eq h]
    dsimp only
    rw [List.take_zero, List.append_nil, List.flatten_append, List.flatten_singleton, hwrite,
      ← List.append_assoc, List.drop_append_of_le_length hle]

/-- A negative status comes from the link. -/
def LinkFailed (r : BufferedReader) (status : Int) : Prop :=
  ∃ code : Nat, status = -(code + 1) ∧ .error code ∈ r.link

/-- The loop ends, with all bytes that it read counted, or with an error of the link. -/
theorem readFromLink_spec {limit total reads : Nat} (h : r.Inv) (hsize : r.buffer_size < 2 ^ 30)
    (hlimit : limit ≤ 2 ^ 30) (htotal : total ≤ limit) (hreads : (bytesOf r.link).length < reads) :
    ∃ status r' data, readFromLink limit reads total r = some (status, r') ∧ Took r r' data ∧
      total + data.length ≤ limit + r.buffer_size ∧
      (LinkFailed r status ∨ status = (total + data.length : Nat)) ∧
      (AtOnce r.link → AtOnce r'.link ∧ (limit < total + data.length ∨ r'.link = [])) := by
  induction reads generalizing total r with
  | zero => omega
  | succ reads ih =>
    have hw := h.position_write_lt
    have hspace : toInt (r.buffer_size - r.position_write : Nat) =
        (r.buffer_size - r.position_write : Nat) := toInt_eq (by omega) (by omega)
    rw [readFromLink, hspace]
    rcases recv_cases (r.buffer_size - r.position_write) r.link with
      ⟨code, rest, hr, hrest, hcode, herrors⟩ | ⟨data, rest, hr, hle, hrest, herrors⟩
    · rw [hr]
      refine ⟨-(code + 1), { r with link := rest }, [], ?_, ?_, ?_, .inl ⟨code, rfl, hcode⟩,
        fun hl => ?_⟩
      · dsimp only
        rw [if_pos (by omega)]
      · refine ⟨⟨h.full_length, h.last_length, h.position_write_lt, h.position_read_le⟩,
          ⟨rfl, fun buf hb => ⟨hb, rfl⟩⟩, ?_, hrest, herrors⟩
        exact (List.append_nil _).symm
      · rw [List.length_nil]
        omega
      · rcases hl with hl | ⟨data, hl⟩ <;> rw [hl] at hcode <;> simp at hcode
    · have honce : AtOnce r.link → AtOnce rest ∧
          (data.length = r.buffer_size - r.position_write ∨ rest = []) := by
        intro hl
        obtain ⟨data', rest', hr', hkept⟩ :=
          recv_atOnce (r.buffer_size - r.position_write) hl
        rw [hr] at hr'
        injection hr' with h1 h2
        injection h2 with h2 h3
        rw [h2, h3]
        exact hkept
      rw [hr]
      have hbound : total + data.length ≤ limit + r.buffer_size := by omega
      have hcount : toInt ((total : Int) + data.length) = (total + data.length : Nat) := by
        rw [← Nat.cast_add]
        exact toInt_eq (by omega) (by omega)
      have hlim : toInt limit = limit := toInt_eq (by omega) (by omega)
      dsimp only
      rw [if_neg (by omega), hcount]
      by_cases hshort : (data.length : Int) < (r.buffer_size - r.position_write : Nat)
      · rw [if_pos hshort, Int.toNat_natCast]
        refine ⟨_, _, data, rfl, took_fill h (by omega) hrest herrors, hbound, .inr rfl,
          fun hl => ?_⟩
        obtain ⟨h1, h2⟩ := honce hl
        exact ⟨h1, .inr (h2.resolve_left (by omega))⟩
      · have htook := took_region h (by omega) hrest herrors
        rw [if_neg hshort, hlim]
        by_cases hstop : (limit : Int) < (total + data.length : Nat)
        · rw [if_pos hstop]
          exact ⟨_, _, data, rfl, htook, hbound, .inr rfl,
            fun hl => ⟨(honce hl).1, .inl (by exact_mod_cast hstop)⟩⟩
        · rw [if_neg hstop]
          have hbytes := congrArg List.length hrest
          rw [List.length_append] at hbytes
          have htotal' : total + data.length ≤ limit := Int.ofNat_le.mp (not_lt.mp hstop)
          have hreads' : (bytesOf rest).length < reads := by omega
          obtain ⟨status, r', data', hrun, ht, hb, hstatus, honce'⟩ :=
            ih htook.inv hsize htotal' hreads'
          have hlen : total + (data ++ data').length = total + data.length + data'.length := by
            rw [List.length_append, Nat.add_assoc]
          refine ⟨status, r', data ++ data', hrun, htook.trans ht, hlen ▸ hb, ?_,
            fun hl => hlen ▸ honce' (honce hl).1⟩
          rcases hstatus with ⟨code, hc, hmem⟩ | hs
          · exact .inl ⟨code, hc, herrors code hmem⟩
          · exact .inr (hlen ▸ hs)

/-- Enough bytes are there, or not enough, or the link failed. -/
theorem canConsume_spec (h : r.Inv) (hsize : r.buffer_size < 2 ^ 30) (hpos : 0 < len)
    (hlen : len ≤ 2 ^ 30) (hfits : r.available_bytes < 2 ^ 31) :
    ∃ status r' data, r.canConsume len = some (status, r') ∧ Took r r' data ∧
      r'.available_bytes < 2 ^ 31 ∧
      (LinkFailed r status ∨ status = 0 ∧ r'.available_bytes < len ∨
        0 < status ∧ len ≤ r'.available_bytes) ∧
      (AtOnce r.link → AtOnce r'.link ∧ (len ≤ r'.available_bytes ∨ r'.link = [])) := by
  unfold canConsume
  by_cases henough : len ≤ r.available_bytes
  · rw [if_pos henough, toInt_eq (by omega) (by omega)]
    refine ⟨_, r, [], rfl, ⟨h, Keeps.refl r, (List.append_nil _).symm, rfl, fun _ hc => hc⟩, hfits,
      .inr (.inr ⟨by omega, henough⟩), fun hl => ⟨hl, .inl henough⟩⟩
  · rw [if_neg henough]
    obtain ⟨status, r', data, hrun, ht, hb, hstatus, honce⟩ := readFromLink_spec h hsize
      (show len - r.available_bytes ≤ 2 ^ 30 by omega) (Nat.zero_le _) (Nat.lt_succ_self _)
    have havail : r'.available_bytes = r.available_bytes + data.length := by
      rw [← length_contents ht.inv, ht.contents, List.length_append, length_contents h]
    have hfits' : r'.available_bytes < 2 ^ 31 := by omega
    have honce' : AtOnce r.link → AtOnce r'.link ∧ (len ≤ r'.available_bytes ∨ r'.link = []) :=
      fun hl => (honce hl).imp_right fun hl => hl.imp_left fun hlt => by omega
    have hrun' : readFromLink (len - r.available_bytes : Nat) ((bytesOf r.link).length + 1) 0 r =
      some (status, r') := hrun
    rw [hrun', Option.map_some]
    dsimp only
    rcases hstatus with ⟨code, hc, hmem⟩ | hs
    · have hneg : status < 0 := by omega
      rw [if_pos hneg]
      exact ⟨status, r', data, rfl, ht, hfits', .inl ⟨code, hc, hmem⟩, honce'⟩
    · rw [if_neg (by omega)]
      by_cases hgot : (len : Int) ≤ r.available_bytes + status
      · rw [if_pos hgot, toInt_eq (by omega) (by omega)]
        exact ⟨_, r', data, rfl, ht, hfits', .inr (.inr ⟨by omega, by omega⟩), honce'⟩
      · rw [if_neg hgot]
        exact ⟨0, r', data, rfl, ht, hfits', .inr (.inl ⟨rfl, by omega⟩), honce'⟩

/-! ## Consuming -/

/-- Regions are popped from the front. -/
theorem consumeBlocks_suffix (buffer_size : Nat) (last : Bytes) (full : List Bytes)
    (position_read remaining : Nat) :
    (quarkdb.BufferedReader.consumeBlocks buffer_size last full position_read remaining).2.1 <:+
      full := by
  induction full generalizing position_read remaining with
  | nil => exact List.suffix_refl _
  | cons block full ih =>
    unfold quarkdb.BufferedReader.consumeBlocks
    split
    · exact List.suffix_refl _
    · dsimp only
      split
      · exact (ih 0 _).trans (List.suffix_cons block full)
      · exact List.suffix_refl _

/-- What changes neither the regions nor what is written of them. -/
theorem keeps_of_eq {r r' : BufferedReader} (hsize : r'.buffer_size = r.buffer_size)
    (hreg : r'.released ++ r'.full = r.released ++ r.full) (hlast : r'.last = r.last)
    (hw : r'.position_write = r.position_write) : Keeps r r' := by
  have hlen : r'.released.length + r'.full.length = r.released.length + r.full.length := by
    rw [← List.length_append, hreg, List.length_append]
  have hregions : r'.regions = r.regions := by rw [regions, regions, hreg, hlast]
  refine ⟨hsize, fun buf hb => ⟨?_, by rw [hregions]⟩⟩
  cases buf with
  | internal bytes => trivial
  | region index offset size =>
    unfold Written at hb ⊢
    rw [hlen, hsize, hw]
    exact hb

/-- Bytes have been taken from the front of the contents. -/
structure Gave (r r' : BufferedReader) (str : Bytes) : Prop where
  inv : r'.Inv
  keeps : Keeps r r'
  contents : str ++ r'.contents = r.contents
  link : r'.link = r.link

theorem consumeInternal_spec (h : r.Inv) (hlen : len ≤ r.available_bytes) :
    Gave r (r.consumeInternal len).2 (r.consumeInternal len).1 ∧
      (r.consumeInternal len).1.length = len := by
  obtain ⟨hb1, hb2⟩ := position_bounds h
  have hw := h.position_write_lt
  have hl := length_flatten_full h
  have hll := h.last_length
  have hp : r.position_read ≤ (r.full.headD r.last).length := by
    have hpr := h.position_read_le
    cases hf : r.full with
    | nil =>
      rw [hf, if_pos rfl] at hpr
      rw [List.headD_nil]
      omega
    | cons region full =>
      rw [hf, if_neg (List.cons_ne_nil _ _)] at hpr
      rw [List.headD_cons, h.full_length region (by rw [hf]; exact List.mem_cons_self)]
      exact hpr
  have hr : len ≤ ((r.full.flatten ++ r.last).drop r.position_read).length := by
    rw [List.length_drop, List.length_append]
    omega
  obtain ⟨h1, h2, h3, h4⟩ := quarkdb.BufferedReader.consumeBlocks_spec h.full_length hp hr
  have hsuffix := consumeBlocks_suffix r.buffer_size r.last r.full r.position_read len
  unfold consumeInternal
  generalize quarkdb.BufferedReader.consumeBlocks r.buffer_size r.last r.full r.position_read len =
    result at h1 h2 h3 h4 hsuffix
  obtain ⟨str, full, position_read⟩ := result
  dsimp only at h1 h2 h3 h4 hsuffix ⊢
  have hpr' : position_read ≤ r.buffer_size := by
    cases full with
    | nil =>
      rw [List.headD_nil] at h4
      omega
    | cons region full =>
      rw [List.headD_cons, h3 region List.mem_cons_self] at h4
      exact h4
  have hfull := length_flatten_of_forall h3
  have hcount := congrArg List.length h2
  simp only [List.length_drop, List.length_append] at hcount
  have hreg : r.released ++ r.full.take (r.full.length - full.length) ++ full =
      r.released ++ r.full := by
    obtain ⟨popped, hpopped⟩ := hsuffix
    rw [← hpopped, List.length_append, Nat.add_sub_cancel, List.take_left', List.append_assoc]
    rfl
  have hinv : Inv { r with
      released := r.released ++ r.full.take (r.full.length - full.length)
      full
      position_read } := by
    refine ⟨h3, hll, hw, ?_⟩
    dsimp only
    split
    · rename_i hnil
      rw [hnil, List.flatten_nil, List.length_nil] at hcount
      omega
    · exact hpr'
  obtain ⟨hb1', hb2'⟩ := position_bounds hinv
  dsimp only at hb1' hb2'
  have hav : available_bytes { r with
      released := r.released ++ r.full.take (r.full.length - full.length)
      full
      position_read } = r.available_bytes - len := by
    rw [hb2', hb2]
    omega
  refine ⟨⟨hinv, keeps_of_eq rfl hreg rfl rfl, ?_, rfl⟩, ?_⟩
  · rw [contents, hav]
    dsimp only
    rw [h1, h2, contents, ← List.take_add, Nat.add_sub_cancel' hlen]
  · rw [h1, List.length_take]
    omega

/-- The first region shows the front of the contents. -/
theorem front_region (h : r.Inv) (hfront : len ≤ r.buffer_size - r.position_read)
    (hread : r.position_read ≤ r.buffer_size) :
    PinnedBuffer.sv r.regions (.region r.released.length r.position_read len) =
      ((r.full.flatten ++ r.last).drop r.position_read).take len := by
  have hhead : r.regions.getD r.released.length [] = r.full.headD r.last := by
    unfold regions
    rw [List.append_assoc, List.getD_append_right _ _ _ _ (le_refl _), Nat.sub_self]
    cases r.full <;> rfl
  have hlen : (r.full.headD r.last).length = r.buffer_size := by
    cases hf : r.full with
    | nil => exact h.last_length
    | cons region full => exact h.full_length region (by rw [hf]; exact List.mem_cons_self)
  have hsplit : ∃ tail, r.full.flatten ++ r.last = r.full.headD r.last ++ tail := by
    cases r.full with
    | nil => exact ⟨[], (List.append_nil _).symm⟩
    | cons region full => exact ⟨full.flatten ++ r.last, List.append_assoc _ _ _⟩
  obtain ⟨tail, htail⟩ := hsplit
  rw [PinnedBuffer.sv, hhead, htail, List.drop_append_of_le_length (by omega),
    List.take_append_of_le_length (by rw [List.length_drop]; omega)]

theorem pinFront_spec (h : r.Inv) (hpos : 0 < len) (hlen : len ≤ r.available_bytes)
    (hfront : len ≤ r.buffer_size - r.position_read) :
    Gave r { r with position_read := r.position_read + len }
        (PinnedBuffer.sv r.regions (.region r.released.length r.position_read len)) ∧
      (PinnedBuffer.sv r.regions (.region r.released.length r.position_read len)).length = len ∧
      r.Written (.region r.released.length r.position_read len) := by
  obtain ⟨hb1, hb2⟩ := position_bounds h
  have hw := h.position_write_lt
  have hstr := front_region h hfront (by omega)
  have hinv : Inv { r with position_read := r.position_read + len } := by
    refine ⟨h.full_length, h.last_length, hw, ?_⟩
    dsimp only
    split
    · rename_i hnil
      rw [hnil, List.length_nil] at hb1 hb2
      omega
    · omega
  have hav : available_bytes { r with position_read := r.position_read + len } =
      r.available_bytes - len := by
    have := (position_bounds hinv).2
    dsimp only at this
    omega
  refine ⟨⟨hinv, keeps_of_eq rfl rfl rfl rfl, ?_, rfl⟩, ?_, ?_⟩
  · rw [contents, hav]
    dsimp only
    rw [hstr, contents, ← List.drop_drop, ← List.take_add, Nat.add_sub_cancel' hlen]
  · rw [hstr, List.length_take, List.length_drop, List.length_append, length_flatten_full h,
      h.last_length]
    omega
  · unfold Written
    cases hf : r.full with
    | nil =>
      rw [hf, List.length_nil] at hb1 hb2
      right
      rw [List.length_nil]
      omega
    | cons region full =>
      left
      rw [List.length_cons]
      omega

/-! ## One call -/

/-- What a call of the reader comes to: the next bytes of the stream, nothing because there are not
so many, or an error of the link. -/
structure Answers (r : BufferedReader) (len : Nat) (status : Int) (buf : PinnedBuffer)
    (r' : BufferedReader) : Prop where
  inv : r'.Inv
  keeps : Keeps r r'
  fits : r'.available_bytes < 2 ^ 31
  written : 0 < status → r'.Written buf
  outcome :
    status = len ∧ (buf.sv r'.regions).length = len ∧ buf.sv r'.regions ++ r'.stream = r.stream ∨
    status = 0 ∧ r'.contents.length < len ∧ r'.stream = r.stream ∨
    LinkFailed r status ∧ r'.stream = r.stream
  atOnce : AtOnce r.link → AtOnce r'.link ∧ (0 < status ∨ r'.link = [])

theorem Gave.stream {r r' : BufferedReader} {str : Bytes} (h : Gave r r' str) :
    str ++ r'.stream = r.stream := by
  rw [BufferedReader.stream, BufferedReader.stream, h.link, ← List.append_assoc, h.contents]

theorem Gave.fits {r r' : BufferedReader} {str : Bytes} (h : Gave r r' str) (hr : r.Inv)
    (hfits : r.available_bytes < 2 ^ 31) : r'.available_bytes < 2 ^ 31 := by
  have hlen := congrArg List.length h.contents
  rw [List.length_append, length_contents h.inv, length_contents hr] at hlen
  omega

theorem perform_spec (h : r.Inv) (hsize : r.buffer_size < 2 ^ 30) (c : ReadCall) (hpos : 0 < c.len)
    (hlen : c.len ≤ 2 ^ 30) (hfits : r.available_bytes < 2 ^ 31) :
    ∃ status buf r', r.perform c = some (status, buf, r') ∧ Answers r c.len status buf r' := by
  obtain ⟨status, r', data, hrun, ht, hfits', hstatus, honce⟩ :=
    canConsume_spec h hsize hpos hlen hfits
  have hint : toInt (c.len : Int) = c.len := toInt_eq (by omega) (by omega)
  by_cases hno : status ≤ 0
  · -- Nothing is consumed.
    refine ⟨status, .internal [], r', ?_, ht.inv, ht.keeps, hfits', fun hp => ?_, ?_, fun hl => ?_⟩
    · cases c with
      | string len =>
        have hrun : r.canConsume len = some (status, r') := hrun
        simp [perform, consume, hrun, hno]
      | pinned len =>
        have hrun : r.canConsume len = some (status, r') := hrun
        simp [perform, consumePinned, hrun, hno]
    · omega
    · right
      rcases hstatus with hf | ⟨h0, hless⟩ | ⟨hp, -⟩
      · exact .inr ⟨hf, ht.stream⟩
      · exact .inl ⟨h0, by rw [length_contents ht.inv]; exact hless, ht.stream⟩
      · omega
    · obtain ⟨h1, h2⟩ := honce hl
      refine ⟨h1, .inr (h2.resolve_left ?_)⟩
      rcases hstatus with ⟨code, -, hmem⟩ | ⟨h0, hless⟩ | ⟨hp, -⟩
      · rcases hl with hl | ⟨data, hl⟩ <;> rw [hl] at hmem <;> simp at hmem
      · omega
      · omega
  · have henough : c.len ≤ r'.available_bytes := by
      rcases hstatus with ⟨code, hc, -⟩ | ⟨h0, -⟩ | ⟨-, he⟩
      · omega
      · omega
      · exact he
    obtain ⟨hg, hglen⟩ := consumeInternal_spec ht.inv henough
    have hcopy : Answers r c.len c.len (.internal (r'.consumeInternal c.len).1)
        (r'.consumeInternal c.len).2 := by
      refine ⟨hg.inv, ht.keeps.trans hg.keeps, hg.fits ht.inv hfits', fun _ => trivial,
        .inl ⟨rfl, hglen, ?_⟩, fun hl => ?_⟩
      · exact hg.stream.trans ht.stream
      · rw [hg.link]
        exact ⟨(honce hl).1, .inl (by omega)⟩
    cases c with
    | string len =>
      have hrun : r.canConsume len = some (status, r') := hrun
      refine ⟨len, _, _, ?_, hcopy⟩
      have hint : toInt (len : Int) = len := hint
      simp [perform, consume, hrun, hno, hint, ReadCall.len]
    | pinned len =>
      have hrun : r.canConsume len = some (status, r') := hrun
      have hint : toInt (len : Int) = len := hint
      by_cases hfront : len ≤ r'.buffer_size - r'.position_read
      · obtain ⟨hp, hplen, hwritten⟩ := pinFront_spec ht.inv hpos henough hfront
        refine ⟨len, _, _, ?_, hp.inv, ht.keeps.trans hp.keeps, hp.fits ht.inv hfits',
          fun _ => (hp.keeps.buffer _ hwritten).1, .inl ⟨rfl, ?_, ?_⟩, fun hl => ?_⟩
        · simp only [perform, consumePinned, hrun, Option.map_some, if_neg hno, if_pos hfront, hint,
            ReadCall.len]
        · rw [(hp.keeps.buffer _ hwritten).2]
          exact hplen
        · rw [(hp.keeps.buffer _ hwritten).2]
          exact hp.stream.trans ht.stream
        · rw [hp.link]
          exact ⟨(honce hl).1, .inl (Int.natCast_pos.mpr hpos)⟩
      · refine ⟨len, _, _, ?_, hcopy⟩
        simp only [perform, consumePinned, hrun, Option.map_some, if_neg hno, if_neg hfront, hint,
          ReadCall.len]

/-! ## Any calls -/

/-- The bytes that a call gave out, as its buffer shows them now. -/
def given (regions : List Bytes) (result : Int × PinnedBuffer) : Bytes :=
  if 0 < result.1 then result.2.sv regions else []

theorem given_of_keeps {r r' : BufferedReader} (h : Keeps r r') {result : Int × PinnedBuffer}
    (hw : 0 < result.1 → r.Written result.2) :
    given r'.regions result = given r.regions result := by
  unfold given
  split
  · rename_i hp
    exact (h.buffer _ (hw hp)).2
  · rfl

theorem Answers.stream {r r' : BufferedReader} {len : Nat} {status : Int} {buf : PinnedBuffer}
    (h : Answers r len status buf r') (hpos : 0 < len) :
    given r'.regions (status, buf) ++ r'.stream = r.stream := by
  unfold given
  rcases h.outcome with ⟨rfl, -, hs⟩ | ⟨rfl, -, hs⟩ | ⟨⟨code, rfl, -⟩, hs⟩
  · rw [if_pos (by omega)]
    exact hs
  · rw [if_neg (lt_irrefl 0)]
    exact hs
  · rw [if_neg (by dsimp only; omega)]
    exact hs

/-- What the calls have given out, and what is left, are the stream. -/
theorem performAll_spec (h : r.Inv) (hsize : r.buffer_size < 2 ^ 30) (calls : List ReadCall)
    (hasked : ∀ c ∈ calls, c.Asked) (hfits : r.available_bytes < 2 ^ 31) :
    ∃ results r', r.performAll calls = some (results, r') ∧ r'.Inv ∧ Keeps r r' ∧
      r'.available_bytes < 2 ^ 31 ∧ (∀ x ∈ results, 0 < x.1 → r'.Written x.2) ∧
      results.flatMap (given r'.regions) ++ r'.stream = r.stream := by
  induction calls generalizing r with
  | nil => exact ⟨[], r, rfl, h, Keeps.refl r, hfits, fun x hx => absurd hx List.not_mem_nil, rfl⟩
  | cons c calls ih =>
    obtain ⟨hpos, hlen⟩ := hasked c List.mem_cons_self
    obtain ⟨status, buf, r', hrun, ha⟩ := perform_spec h hsize c hpos hlen hfits
    have hsize' : r'.buffer_size < 2 ^ 30 := by
      rw [ha.keeps.size]
      exact hsize
    obtain ⟨results, r'', hrest, hinv, hkeeps, hfits', hwritten, hstream⟩ := ih ha.inv hsize'
      (fun c' hc => hasked c' (List.mem_cons_of_mem c hc)) ha.fits
    refine ⟨(status, buf) :: results, r'', ?_, hinv, ha.keeps.trans hkeeps, hfits', ?_, ?_⟩
    · rw [performAll, hrun, Option.bind_some, hrest, Option.map_some]
    · intro x hx hp
      rcases List.mem_cons.mp hx with rfl | hx
      · exact (hkeeps.buffer buf (ha.written hp)).1
      · exact hwritten x hx hp
    · rw [List.flatMap_cons, given_of_keeps hkeeps ha.written, List.append_assoc, hstream]
      exact ha.stream hpos

theorem inv_onLink {buffer_size : Nat} (h : 0 < buffer_size) (link : List Received) :
    (onLink buffer_size link).Inv := by
  refine ⟨fun region hm => ?_, List.length_replicate, h, le_refl _⟩
  cases hm

theorem available_onLink (buffer_size : Nat) (link : List Received) :
    (onLink buffer_size link).available_bytes = 0 := by
  simp [available_bytes, onLink]

/-- In regions of less than a GiB: after any calls the buffers that were handed out and the bytes
that are left are the stream of the link; and the next call gives exactly the next bytes, or
nothing if there are not so many, or passes on an error of the link, and changes no buffer that was
handed out. -/
theorem a_reader_with_regions_is_a_stream {buffer_size : Nat} (h : 1 ≤ buffer_size)
    (hsize : buffer_size < 2 ^ 30) (link : List Received) (calls : List ReadCall)
    (hasked : ∀ c ∈ calls, c.Asked) :
    ∃ results r, (onLink buffer_size link).performAll calls = some (results, r) ∧
      results.flatMap (given r.regions) ++ r.stream = bytesOf link ∧
      ∀ c : ReadCall, c.Asked → ∃ status buf r', r.perform c = some (status, buf, r') ∧
        (status = c.len ∧ (buf.sv r'.regions).length = c.len ∧
            buf.sv r'.regions ++ r'.stream = r.stream ∨
          status = 0 ∧ r'.contents.length < c.len ∧ r'.stream = r.stream ∨
          LinkFailed r status ∧ r'.stream = r.stream) ∧
        ∀ x ∈ results, 0 < x.1 → x.2.sv r'.regions = x.2.sv r.regions := by
  have hinv := inv_onLink h link
  obtain ⟨results, r, hrun, hr, hkeeps, hfits, hwritten, hstream⟩ :=
    performAll_spec hinv hsize calls hasked (by rw [available_onLink]; decide)
  refine ⟨results, r, hrun, ?_, fun c hc => ?_⟩
  · rw [hstream, stream, ← List.nil_append (bytesOf link)]
    congr 1
    apply List.eq_nil_of_length_eq_zero
    rw [length_contents hinv, available_onLink]
  · obtain ⟨status, buf, r', hp, ha⟩ := perform_spec hr (by rw [hkeeps.size]; exact hsize) c hc.1
      hc.2 hfits
    exact ⟨status, buf, r', hp, ha.outcome, fun x hx hpos =>
      (ha.keeps.buffer x.2 (hwritten x hx hpos)).2⟩

/-- Two buffers are pinned to a region, the second up to its end, and outlive it. -/
theorem a_reader_of_small_regions_is_a_stream :
    ∃ results r, (onLink 3 [.bytes (ascii "ab"), .bytes [], .bytes (ascii "cdefg")]).performAll
        [.pinned 1, .pinned 3, .pinned 2, .string 4] = some (results, r) ∧
      results = [(1, .region 0 0 1), (0, .internal []), (2, .region 0 1 2),
        (4, .internal (ascii "defg"))] ∧
      results.flatMap (given r.regions) ++ r.stream = ascii "abcdefg" := by
  obtain ⟨results, r, hrun, hstream, -⟩ := a_reader_with_regions_is_a_stream
    (show 1 ≤ 3 by decide) (by decide) [.bytes (ascii "ab"), .bytes [], .bytes (ascii "cdefg")]
    [.pinned 1, .pinned 3, .pinned 2, .string 4] (by decide)
  refine ⟨results, r, hrun, ?_, hstream⟩
  have hresults : ((onLink 3 [.bytes (ascii "ab"), .bytes [], .bytes (ascii "cdefg")]).performAll
      [.pinned 1, .pinned 3, .pinned 2, .string 4]).map Prod.fst =
      some [(1, .region 0 0 1), (0, .internal []), (2, .region 0 1 2),
        (4, .internal (ascii "defg"))] := by decide +kernel
  rw [hrun] at hresults
  exact Option.some.inj hresults

/-! ## The reader of the parser -/

/-- More bytes are ready on a link that has all of them in one piece. -/
def deliver (chunk : Bytes) (r : BufferedReader) : BufferedReader :=
  { r with link := [.bytes (bytesOf r.link ++ chunk)] }

/-- The same call of the reader without memory. -/
def plainly (q : quarkdb.BufferedReader) : ReadCall → Int × Bytes × quarkdb.BufferedReader
  | .string len => q.consume len
  | .pinned len => q.consumePinned len

/-- Both readers have the same bytes before them. -/
structure Agree (r : BufferedReader) (q : quarkdb.BufferedReader) : Prop where
  inv : r.Inv
  size : r.buffer_size < 2 ^ 30
  atOnce : AtOnce r.link
  stream : r.stream = q.unread
  short : q.unread.length < 2 ^ 31

theorem agree_onLink {buffer_size : Nat} (h : 0 < buffer_size) (hle : buffer_size ≤ 2 ^ 15) :
    Agree (onLink buffer_size []) (quarkdb.BufferedReader.onLink buffer_size h hle) := by
  have hinv := inv_onLink h []
  have hnone : (onLink buffer_size []).contents = [] := by
    apply List.eq_nil_of_length_eq_zero
    rw [length_contents hinv, available_onLink]
  have hsize : buffer_size < 2 ^ 30 := by omega
  refine ⟨hinv, hsize, .inl rfl, ?_, show 0 < 2 ^ 31 by decide⟩
  rw [stream, hnone]
  rfl

theorem agree_deliver {q : quarkdb.BufferedReader} (h : Agree r q) {chunk : Bytes}
    (hshort : q.unread.length + chunk.length < 2 ^ 31) :
    Agree (r.deliver chunk) (q.deliver chunk) := by
  have hu : (q.deliver chunk).unread = q.unread ++ chunk := ByteSource.unread_deliver chunk q
  refine ⟨⟨h.inv.full_length, h.inv.last_length, h.inv.position_write_lt, h.inv.position_read_le⟩,
    h.size, .inr ⟨_, rfl⟩, ?_, ?_⟩
  · show r.contents ++ (bytesOf r.link ++ chunk ++ []) = _
    rw [hu, ← h.stream, List.append_nil, stream, List.append_assoc]
  · rw [hu, List.length_append]
    exact hshort

/-- A call has the same status in both, and gives out the same bytes. -/
theorem agree_perform {q : quarkdb.BufferedReader} (h : Agree r q) {c : ReadCall} (hc : c.Asked) :
    ∃ status buf r', r.perform c = some (status, buf, r') ∧
      (plainly q c).1 = status ∧ (plainly q c).2.1 = given r'.regions (status, buf) ∧
      Agree r' (plainly q c).2.2 := by
  have hlen := congrArg List.length h.stream
  rw [stream, List.length_append, length_contents h.inv] at hlen
  have hshort := h.short
  obtain ⟨status, buf, r', hrun, ha⟩ := perform_spec h.inv h.size c hc.1 hc.2 (by omega)
  have hasks : quarkdb.BufferedReader.Asks c.len q := by
    have := hc.2
    exact .inl ⟨by omega, h.short⟩
  have hplain : Prod.map id (Prod.map id quarkdb.BufferedReader.unread) (plainly q c) =
      pull c.len q.unread := by
    cases c with
    | string len => exact quarkdb.BufferedReader.consume_unread hasks
    | pinned len => exact quarkdb.BufferedReader.consumePinned_unread hasks
  obtain ⟨honce, hread⟩ := ha.atOnce h.atOnce
  -- What the call of the reader with regions comes to is what the plain string gives.
  have hsame : pull c.len q.unread = (status, given r'.regions (status, buf), r'.stream) := by
    have hpos := hc.1
    rw [← h.stream]
    rcases ha.outcome with ⟨rfl, hl, hs⟩ | ⟨rfl, hl, hs⟩ | ⟨⟨code, -, hmem⟩, -⟩
    · have hgiven : given r'.regions ((c.len : Int), buf) = buf.sv r'.regions := if_pos (by omega)
      have hle := congrArg List.length hs
      rw [List.length_append, hl] at hle
      rw [pull, if_pos (by omega), hgiven, ← hs, Int.toNat_natCast, List.take_left' hl,
        List.drop_left' hl]
    · have hnone : r'.link = [] := hread.resolve_left (lt_irrefl 0)
      have hle := congrArg List.length hs
      rw [stream, hnone, bytesOf, List.append_nil] at hle
      rw [pull, if_neg (by omega), hs]
      rfl
    · rcases h.atOnce with hl | ⟨data, hl⟩ <;> rw [hl] at hmem <;> simp at hmem
  rw [hsame] at hplain
  have hstream : (plainly q c).2.2.unread = r'.stream := congrArg (fun x => x.2.2) hplain
  refine ⟨status, buf, r', hrun, congrArg Prod.fst hplain, congrArg (fun x => x.2.1) hplain,
    ha.inv, ha.keeps.size ▸ h.size, honce, hstream.symm, ?_⟩
  have hless := length_pull_le c.len q.unread
  rw [hsame] at hless
  rw [hstream]
  exact hless.trans_lt hshort

/-! ## Regions of a GiB -/

theorem readFromLink_fills (limit total : Int) (reads : Nat) {data : Bytes}
    {link : List Received} {r : BufferedReader}
    (hrecv : recv (toInt (r.buffer_size - r.position_write : Nat)) r.link =
      ((data.length : Int), data, link))
    (hfull : ¬ (data.length : Int) < toInt (r.buffer_size - r.position_write : Nat))
    (hlimit : ¬ toInt limit < toInt (total + data.length)) :
    readFromLink limit (reads + 1) total r =
      readFromLink limit reads (toInt (total + data.length)) { r with
        full := r.full ++ [write r.last r.position_write data]
        last := List.replicate r.buffer_size 0
        link
        position_write := 0 } := by
  rw [readFromLink, hrecv]
  dsimp only
  rw [if_neg (by omega), if_neg hfull, if_neg hlimit]

theorem readFromLink_empty (limit total : Int) (reads : Nat) {r : BufferedReader}
    (hlink : r.link = []) (hspace : 0 < toInt (r.buffer_size - r.position_write : Nat)) :
    readFromLink limit (reads + 1) total r =
      some (toInt total, { r with last := write r.last r.position_write [] }) := by
  obtain ⟨size, released, full, last, position_read, position_write, link⟩ := r
  obtain rfl : link = [] := hlink
  rw [readFromLink, recv]
  dsimp only
  rw [if_neg (lt_irrefl 0), if_pos hspace, Int.add_zero]
  rfl

/-- Two regions of a GiB are filled before the count is looked at again. -/
theorem canConsume_overflow {size : Nat} {data : Bytes} (hsize : size = 2 ^ 30)
    (hlen : data.length = size + size) :
    ∃ r', (onLink size [.bytes data]).canConsume size = some (-2 ^ 31, r') ∧
      r'.available_bytes = 2 ^ 31 ∧ r'.link = [] := by
  have hspace : toInt (size - 0 : Nat) = size := by
    rw [Nat.sub_zero]
    exact toInt_eq (by omega) (by omega)
  have htake : (data.take size).length = size := by
    rw [List.length_take]
    omega
  have hdrop : (data.drop size).length = size := by
    rw [List.length_drop]
    omega
  have hone : toInt (0 + (data.take size).length) = size := by
    rw [htake, Int.zero_add]
    exact toInt_eq (by omega) (by omega)
  have htwo : toInt ((size : Int) + (data.drop size).length) = -2 ^ 31 := by
    rw [hdrop, hsize]
    decide
  have hlim : toInt (size - 0 : Nat) = size := hspace
  have hfirst : recv (toInt (size - 0 : Nat)) [.bytes data] =
      (((data.take size).length : Int), data.take size, [.bytes (data.drop size)]) := by
    rw [hspace, recv, if_neg (by omega), Int.toNat_natCast]
  have hsecond : recv (toInt (size - 0 : Nat)) [.bytes (data.drop size)] =
      (((data.drop size).length : Int), data.drop size, []) := by
    rw [hspace, recv, if_pos (by omega)]
  obtain ⟨k, hk⟩ : ∃ k, (bytesOf [.bytes data]).length + 1 = k + 2 + 1 := by
    refine ⟨data.length - 2, ?_⟩
    rw [bytesOf, bytesOf, List.append_nil]
    omega
  have hfull : ∀ part : Bytes, part.length = size →
      ¬ (part.length : Int) < toInt (size - 0 : Nat) := by
    intro part hp
    rw [hspace]
    omega
  have hgo : ∀ n : Int, n ≤ size → ¬ toInt (size - 0 : Nat) < n := by
    intro n hn
    rw [hspace]
    omega
  have h1 := readFromLink_fills (size - 0 : Nat) 0 (k + 2) (r := onLink size [.bytes data]) hfirst
    (hfull _ htake) (hgo _ (le_of_eq hone))
  rw [hone] at h1
  have h2 := readFromLink_fills (size - 0 : Nat) size (k + 1)
    (r := ⟨size, [], [write (List.replicate size 0) 0 (data.take size)],
      List.replicate size 0, 0, 0, [.bytes (data.drop size)]⟩) hsecond (hfull _ hdrop)
    (hgo _ (by rw [htwo]; omega))
  rw [htwo] at h2
  have h3 := readFromLink_empty (size - 0 : Nat) (-2 ^ 31) k
    (r := ⟨size, [], [write (List.replicate size 0) 0 (data.take size)] ++
      [write (List.replicate size 0) 0 (data.drop size)], List.replicate size 0, 0, 0, []⟩) rfl
    (by rw [show toInt _ = (size : Int) from hspace]; omega)
  have hrun := h1.trans (h2.trans h3)
  have hcount : toInt (-2 ^ 31) = -2 ^ 31 := by decide
  rw [hcount] at hrun
  refine ⟨⟨size, [], [write (List.replicate size 0) 0 (data.take size)] ++
    [write (List.replicate size 0) 0 (data.drop size)],
    write (List.replicate size 0) 0 [], 0, 0, []⟩, ?_, ?_, rfl⟩
  · rw [canConsume, available_onLink, if_neg (by omega)]
    have hlink : (onLink size [.bytes data]).link = [.bytes data] := rfl
    have hneg : (-2 ^ 31 : Int) < 0 := by decide
    rw [hlink, hk, hrun, Option.map_some]
    exact congrArg some (if_pos hneg)
  · simp [available_bytes]
    omega

/-- Two GiB in one go: the count of bytes is negative, so that the call fails, though the link did
not, and twice the bytes that were asked for are there. -/
theorem a_reader_of_large_regions_fails :
    ∃ buf r', (onLink (2 ^ 30) [.bytes (List.replicate (2 ^ 31) 0)]).perform (.string (2 ^ 30)) =
        some (-2 ^ 31, buf, r') ∧ ReadCall.Asked (.string (2 ^ 30)) ∧
      r'.available_bytes = 2 ^ 31 ∧ r'.link = [] := by
  obtain ⟨r', hr, hav, hl⟩ := canConsume_overflow (show 2 ^ 30 = 2 ^ 30 from rfl)
    (show (List.replicate (2 ^ 31) (0 : UInt8)).length = 2 ^ 30 + 2 ^ 30 from
      List.length_replicate)
  refine ⟨.internal [], r', ?_, by decide, hav, hl⟩
  have hneg : (-2 ^ 31 : Int) ≤ 0 := by decide
  rw [perform, consume, hr, Option.map_some]
  exact congrArg some (if_pos hneg)

end

end BufferedReader

end Pinned

end quarkdb
