-- What a stream of bytes holds, read from its start: the requests, and where the
-- stream ends or goes wrong. A parser that has the whole stream reads it so.
import QuarkDB.RedisParser

namespace quarkdb

/-! ## Sizes -/

/-- What stands where a size is expected. -/
inductive Announced
  | unfinished
  | malformed
  | size (n : Int) (rest : Bytes)
  deriving DecidableEq

/-- The line at the start of a stream, as a size. -/
def announced (pfx : UInt8) (s : Bytes) : Announced :=
  if newline ∈ s then
    match lineInteger pfx (s.takeWhile (· ≠ newline) ++ [newline]) with
    | none => .malformed
    | some n => .size n (s.dropWhile (· ≠ newline)).tail
  else .unfinished

theorem announced_of_not_mem {pfx : UInt8} {s : Bytes} (h : newline ∉ s) :
    announced pfx s = .unfinished := by
  simp [announced, h]

theorem announced_line (pfx : UInt8) {line : Bytes} (h : newline ∉ line) (rest : Bytes) :
    announced pfx (line ++ newline :: rest) =
      match lineInteger pfx (line ++ [newline]) with
      | none => .malformed
      | some n => .size n rest := by
  have hne : ∀ c ∈ line, decide (c ≠ newline) = true := by
    intro c hc
    simp only [ne_eq, decide_eq_true_eq]
    rintro rfl
    exact h hc
  have htake : (line ++ newline :: rest).takeWhile (· ≠ newline) = line := by
    rw [List.takeWhile_append_of_pos hne]
    simp
  have hdrop : (line ++ newline :: rest).dropWhile (· ≠ newline) = newline :: rest := by
    rw [List.dropWhile_append_of_pos hne]
    simp
  rw [announced, if_pos (by simp), htake, hdrop, List.tail_cons]

/-- A stream either has a line at its start or is a part of one. -/
theorem exists_line {s : Bytes} (h : newline ∈ s) :
    ∃ line rest, s = line ++ newline :: rest ∧ newline ∉ line :=
  List.eq_append_cons_of_mem h

theorem lineInteger_range {pfx : UInt8} {line : Bytes} {n : Int}
    (h : lineInteger pfx line = some n) : -2 ^ 31 ≤ n ∧ n < 2 ^ 31 := by
  unfold lineInteger at h
  split at h
  · cases h
  · obtain ⟨m, -, rfl⟩ := Option.map_eq_some_iff.mp h
    exact toInt_range m

theorem announced_range {pfx : UInt8} {s rest : Bytes} {n : Int}
    (h : announced pfx s = .size n rest) : -2 ^ 31 ≤ n ∧ n < 2 ^ 31 := by
  unfold announced at h
  split at h
  · split at h
    · cases h
    · next hl =>
      cases h
      exact lineInteger_range hl
  · cases h

/-! ## Requests -/

/-- The elements of a request, as far as they go. -/
inductive Elements
  | done (parts : RedisRequest) (zeroSize : Bool) (rest : Bytes)
  | unfinished
  | rejected (status : Int)
  /-- A size of -1 with a byte after it. -/
  | minusOne
  deriving DecidableEq

/-- One more element in front. -/
def Elements.cons (part : Bytes) (zeroSize : Bool) : Elements → Elements
  | .done parts zeroSize' rest => .done (part :: parts) (zeroSize || zeroSize') rest
  | other => other

/-- No string is of such a size: the length asked for is not positive, or it is no `int`. -/
def Endless (n : Int) : Prop := n < 0 ∨ 2 ^ 31 - 2 ≤ n

instance (n : Int) : Decidable (Endless n) := inferInstanceAs (Decidable (_ ∨ _))

/-- The elements that a stream holds from its start on. -/
def elements (authenticated : Bool) : Nat → Bytes → Elements
  | 0, s => .done [] false s
  | left + 1, s =>
    match announced 36 s with
    | .unfinished => .unfinished
    | .malformed => .rejected (-1)
    | .size n rest =>
      if n = -1 then if rest = [] then .unfinished else .minusOne
      else if !authenticated && 1048576 ≤ n then .rejected (-2)
      else if Endless n ∨ (rest.length : Int) < n + 2 then .unfinished
      else if (rest.drop n.toNat).take 2 = [carriage, newline] then
        (elements authenticated left (rest.drop (n.toNat + 2))).cons (rest.take n.toNat) (n = 0)
      else .rejected (-1)

/-- The first request of a stream, as far as it goes. -/
inductive Reading
  | request (parts : RedisRequest) (rest : Bytes)
  | unfinished
  | rejected (status : Int)
  | fault (fault : FetchFault)
  deriving DecidableEq

def reading (authenticated : Bool) (s : Bytes) : Reading :=
  match announced 42 s with
  | .unfinished => .unfinished
  | .malformed => .rejected (-1)
  | .size n rest =>
    if !authenticated && 5 ≤ n then .rejected (-2)
    else if n < 0 then .fault .lengthError
    else
      match elements authenticated n.toNat rest with
      | .done parts false rest => .request parts rest
      | .done parts true _ =>
        match toPrintableString parts with
        | .ok () => .rejected (-2)
        | .error fault => .fault (.printing fault)
      | .unfinished => .unfinished
      | .rejected status => .rejected status
      | .minusOne => .fault .outOfBounds

/-! ## The parser reads it so -/

namespace RedisParser

variable {p : RedisParser Bytes}

/-- A parser on a plain string has one more piece of it. -/
def more (chunk : Bytes) (p : RedisParser Bytes) : RedisParser Bytes :=
  { p with reader := p.reader ++ chunk }

theorem pull_one (c : UInt8) (s : Bytes) : pull 1 (c :: s) = (1, [c], s) := by
  have h : (0 : Int) < 1 ∧ (1 : Int) ≤ ((c :: s).length : Nat) := by
    rw [List.length_cons]
    omega
  rw [pull, if_pos h]
  rfl

theorem readLine_nil (fuel : Nat) (h : p.reader = []) : p.readLine (fuel + 1) = (0, p) := by
  cases p
  cases h
  rfl

theorem readLine_cons (fuel : Nat) {c : UInt8} {s : Bytes} (h : p.reader = c :: s) :
    p.readLine (fuel + 1) =
      if c = newline then (1, p.appendInteger [c] s)
      else (p.appendInteger [c] s).readLine fuel := by
  have hc : ByteSource.consume 1 p.reader = (1, [c], s) := by
    rw [h]
    exact pull_one c s
  rw [readLine, hc]
  simp

theorem readLine_line {fuel : Nat} {line rest : Bytes} (hf : p.reader.length ≤ fuel)
    (hr : p.reader = line ++ newline :: rest) (hl : newline ∉ line) :
    p.readLine fuel = (1, p.appendInteger (line ++ [newline]) rest) := by
  induction line generalizing p fuel with
  | nil =>
    cases fuel with
    | zero => simp [hr] at hf
    | succ fuel =>
      rw [readLine_cons fuel hr, if_pos rfl]
      rfl
  | cons c line ih =>
    cases fuel with
    | zero => simp [hr] at hf
    | succ fuel =>
      have hc : c ≠ newline := by
        rintro rfl
        simp at hl
      rw [readLine_cons fuel hr, if_neg hc]
      apply (ih _ rfl _).trans
      · simp [appendInteger]
      · simp [hr] at hf
        simp [appendInteger]
        omega
      · simp at hl
        exact hl.2

theorem readLine_unfinished {fuel : Nat} (hf : p.reader.length < fuel) (h : newline ∉ p.reader) :
    p.readLine fuel = (0, p.appendInteger p.reader []) := by
  induction fuel generalizing p with
  | zero => omega
  | succ fuel ih =>
    cases hr : p.reader with
    | nil =>
      rw [readLine_nil fuel hr]
      cases p
      cases hr
      simp [appendInteger]
    | cons c s =>
      have hc : c ≠ newline := by
        rintro rfl
        simp [hr] at h
      rw [readLine_cons fuel hr, if_neg hc, ih]
      · simp [appendInteger]
      · simp [hr] at hf
        simpa [appendInteger] using hf
      · simp [hr] at h
        simpa [appendInteger] using h.2

/-- The number at the end of a line. -/
theorem readInteger_line (pfx : UInt8) {line rest : Bytes}
    (hr : p.reader = line ++ newline :: rest) (hl : newline ∉ line) :
    p.readInteger pfx =
      match lineInteger pfx (p.current_integer ++ line ++ [newline]) with
      | none => (-1, 0, p.appendInteger (line ++ [newline]) rest)
      | some n => (1, n, { p with reader := rest, current_integer := [] }) := by
  have hu : ByteSource.unread p.reader = p.reader := rfl
  rw [readInteger, hu, readLine_line (Nat.le_succ _) hr hl]
  simp only [appendInteger, List.append_assoc]
  cases lineInteger pfx (p.current_integer ++ (line ++ [newline])) <;> rfl

theorem readInteger_unfinished (pfx : UInt8) (h : newline ∉ p.reader) :
    p.readInteger pfx = (0, 0, p.appendInteger p.reader []) := by
  have hu : ByteSource.unread p.reader = p.reader := rfl
  rw [readInteger, hu, readLine_unfinished (Nat.lt_succ_self _) h]
  rfl

/-! ### Strings -/

theorem toInt_add_two {n : Int} (h1 : -2 ^ 31 ≤ n) (h2 : n < 2 ^ 31) :
    toInt (n + 2) = if n < 2 ^ 31 - 2 then n + 2 else n + 2 - 2 ^ 32 := by
  unfold toInt
  rw [Int.bmod_def]
  split <;> split <;> omega

theorem pull_none {len : Int} {s : Bytes} (h : len ≤ 0 ∨ (s.length : Int) < len) :
    pull len s = (0, [], s) := by
  rw [pull, if_neg (by omega)]

theorem readString_wait {n : Int} (h : toInt (n + 2) ≤ 0 ∨ (p.reader.length : Int) < toInt (n + 2)) :
    p.readString n = .ok (0, [], p) := by
  have hc : ByteSource.consumePinned (toInt (n + 2)) p.reader = (0, [], p.reader) := pull_none h
  rw [readString, hc]
  rfl

theorem readString_endless {n : Int} (h1 : -2 ^ 31 ≤ n) (h2 : n < 2 ^ 31) (h : n ≠ -1)
    (hw : Endless n ∨ (p.reader.length : Int) < n + 2) : p.readString n = .ok (0, [], p) := by
  apply readString_wait
  rw [toInt_add_two h1 h2]
  unfold Endless at hw
  split <;> omega

/-- The two bytes that `readString` checks are the last two. -/
theorem ends_in_crlf (str tail : Bytes) (h : tail.length = 2) :
    (str ++ tail).dropLast.dropLast = str ∧
      ((str ++ tail).dropLast.getLast? = some carriage ∧ (str ++ tail).getLast? = some newline ↔
        tail = [carriage, newline]) := by
  obtain ⟨a, b, rfl⟩ := List.length_eq_two.mp h
  have h1 : (str ++ [a, b]).dropLast = str ++ [a] := by
    rw [List.append_cons, List.dropLast_concat]
  have h2 : (str ++ [a, b]).getLast? = some b := by simp
  rw [h1, h2]
  simp

theorem readString_read {n len : Int} {str reader : Bytes}
    (hc : ByteSource.consumePinned (toInt (n + 2)) p.reader = (len, str, reader))
    (hlen : ¬ len ≤ 0) (hstr : ¬ str.length < 2) :
    p.readString n =
      if str.dropLast.getLast? ≠ some carriage then .ok (-1, str, { p with reader })
      else if str.getLast? ≠ some newline then .ok (-1, str, { p with reader })
      else .ok (len, str.dropLast.dropLast, { p with reader }) := by
  unfold readString
  rw [hc]
  dsimp only
  rw [checkString, if_neg hlen, if_neg hstr]

theorem readString_known {n : Int} (h0 : 0 ≤ n) (h : n < 2 ^ 31 - 2)
    (hl : n + 2 ≤ p.reader.length) :
    p.readString n =
      if (p.reader.drop n.toNat).take 2 = [carriage, newline] then
        .ok (n + 2, p.reader.take n.toNat, { p with reader := p.reader.drop (n.toNat + 2) })
      else
        .ok (-1, p.reader.take (n.toNat + 2), { p with reader := p.reader.drop (n.toNat + 2) }) := by
  have hsize : (n + 2).toNat = n.toNat + 2 := by omega
  have hc : ByteSource.consumePinned (toInt (n + 2)) p.reader =
      (n + 2, p.reader.take (n.toNat + 2), p.reader.drop (n.toNat + 2)) := by
    rw [toInt_eq (by omega) (by omega)]
    simp only [ByteSource.consumePinned, pull]
    rw [if_pos (by omega), hsize]
  have hstr : p.reader.take (n.toNat + 2) =
      p.reader.take n.toNat ++ (p.reader.drop n.toNat).take 2 := List.take_add
  have htail : ((p.reader.drop n.toNat).take 2).length = 2 := by
    simp
    omega
  obtain ⟨h1, h2⟩ := ends_in_crlf (p.reader.take n.toNat) _ htail
  rw [← hstr] at h1 h2
  rw [readString_read hc (by omega) (by simp; omega)]
  by_cases hcrlf : (p.reader.drop n.toNat).take 2 = [carriage, newline]
  · obtain ⟨h3, h4⟩ := h2.mpr hcrlf
    simp [h3, h4, h1, hcrlf]
  · rw [if_neg hcrlf]
    by_cases h3 : (p.reader.take (n.toNat + 2)).dropLast.getLast? = some carriage
    · have h4 : (p.reader.take (n.toNat + 2)).getLast? ≠ some newline :=
        fun h4 => hcrlf (h2.mp ⟨h3, h4⟩)
      simp [h3, h4]
    · simp [h3]

theorem readString_minusOne {c : UInt8} {s : Bytes} (h : p.reader = c :: s) :
    p.readString (-1) = .error .outOfBounds := by
  have hc : ByteSource.consumePinned (toInt (-1 + 2)) p.reader = (1, [c], s) := by
    rw [h]
    exact pull_one c s
  rw [readString, hc]
  rfl

/-- An element of a size that has been read. -/
theorem readSized_eq (authenticated : Bool) (h1 : -2 ^ 31 ≤ p.element_size)
    (h2 : p.element_size < 2 ^ 31) :
    p.readSized authenticated =
      if p.element_size = -1 then
        if p.reader = [] then .ok (0, [], p) else .error .outOfBounds
      else if !authenticated && 1048576 ≤ p.element_size then .ok (-2, [], p)
      else if Endless p.element_size ∨ (p.reader.length : Int) < p.element_size + 2 then
        .ok (0, [], p)
      else if (p.reader.drop p.element_size.toNat).take 2 = [carriage, newline] then
        .ok (p.element_size + 2, p.reader.take p.element_size.toNat,
          { p with reader := p.reader.drop (p.element_size.toNat + 2) })
      else
        .ok (-1, p.reader.take (p.element_size.toNat + 2),
          { p with reader := p.reader.drop (p.element_size.toNat + 2) }) := by
  unfold readSized
  by_cases hm : p.element_size = -1
  · have hsmall : ¬ (!authenticated && (1048576 : Int) ≤ -1) = true := by simp
    rw [if_pos hm, hm, if_neg hsmall]
    cases hr : p.reader with
    | nil =>
      rw [if_pos rfl]
      apply readString_wait
      right
      rw [hr]
      decide
    | cons c s =>
      rw [if_neg (by simp)]
      exact readString_minusOne hr
  · rw [if_neg hm]
    split
    · rfl
    · split
      · next hw => exact readString_endless h1 h2 hm hw
      · next hw =>
        simp only [Endless] at hw
        exact readString_known (by omega) (by omega) (by omega)

/-! ### Elements and requests -/

theorem readInteger_size {pfx : UInt8} (hc : p.current_integer = []) {n : Int} {rest : Bytes}
    (ha : announced pfx p.reader = .size n rest) :
    p.readInteger pfx = (1, n, { p with reader := rest }) := by
  by_cases h : newline ∈ p.reader
  · obtain ⟨line, tail, hr, hl⟩ := exists_line h
    rw [hr, announced_line pfx hl] at ha
    rw [readInteger_line pfx hr hl, hc, List.nil_append]
    cases hi : lineInteger pfx (line ++ [newline]) with
    | none => simp [hi] at ha
    | some m =>
      simp [hi] at ha
      simp [ha]
  · rw [announced_of_not_mem h] at ha
    cases ha

theorem readInteger_malformed {pfx : UInt8} (hc : p.current_integer = [])
    (ha : announced pfx p.reader = .malformed) : ∃ p', p.readInteger pfx = (-1, 0, p') := by
  by_cases h : newline ∈ p.reader
  · obtain ⟨line, tail, hr, hl⟩ := exists_line h
    rw [hr, announced_line pfx hl] at ha
    rw [readInteger_line pfx hr hl, hc, List.nil_append]
    cases hi : lineInteger pfx (line ++ [newline]) with
    | none => exact ⟨_, rfl⟩
    | some m => simp [hi] at ha
  · rw [announced_of_not_mem h] at ha
    cases ha

theorem not_mem_of_unfinished {pfx : UInt8} {s : Bytes} (ha : announced pfx s = .unfinished) :
    newline ∉ s := by
  intro h
  obtain ⟨line, tail, rfl, hl⟩ := exists_line h
  rw [announced_line pfx hl] at ha
  cases hi : lineInteger pfx (line ++ [newline]) <;> simp [hi] at ha

/-- The result of `readElements` after the elements `before` is the one that belongs to
these elements of the stream. -/
def ReadsElements (p : RedisParser Bytes) (before : RedisRequest)
    (result : Except FetchFault (Int × RedisParser Bytes × RedisRequest)) : Elements → Prop
  | .done parts zeroSize rest =>
    ∃ p', result = .ok (1, p', before ++ parts) ∧ p'.reader = rest ∧ p'.current_integer = [] ∧
      p'.encounteredZeroSize = (p.encounteredZeroSize || zeroSize)
  | .unfinished => ∃ p' req', result = .ok (0, p', req')
  | .rejected status => status < 0 ∧ ∃ p' req', result = .ok (status, p', req')
  | .minusOne => result = .error .outOfBounds

theorem ReadsElements.cons {q : RedisParser Bytes} {before : RedisRequest} {part : Bytes}
    {zeroSize : Bool} {result : Except FetchFault (Int × RedisParser Bytes × RedisRequest)}
    {es : Elements} (hz : q.encounteredZeroSize = (p.encounteredZeroSize || zeroSize))
    (h : ReadsElements q (before ++ [part]) result es) :
    ReadsElements p before result (es.cons part zeroSize) := by
  cases es with
  | done parts zeroSize' rest =>
    obtain ⟨p', h1, h2, h3, h4⟩ := h
    refine ⟨p', ?_, h2, h3, ?_⟩
    · simpa using h1
    · rw [h4, hz, Bool.or_assoc]
  | unfinished => exact h
  | rejected status => exact h
  | minusOne => exact h

/-- The elements that `readElements` reads are those that the stream holds. -/
theorem readElements_fresh (authenticated : Bool) {left : Nat} {before : RedisRequest}
    (hs : p.element_size = -1) (hc : p.current_integer = [])
    (hb : p.current_element = before.length) :
    ReadsElements p before
      (readElements authenticated left p (before ++ List.replicate left []))
      (elements authenticated left p.reader) := by
  induction left generalizing p before with
  | zero => exact ⟨p, by simp [readElements], rfl, hc, by simp⟩
  | succ left ih =>
    rw [elements, readElements]
    cases ha : announced 36 p.reader with
    | unfinished =>
      have hr := readInteger_unfinished 36 (not_mem_of_unfinished ha)
      rw [readElement, if_pos hs, hr]
      exact ⟨_, _, rfl⟩
    | malformed =>
      obtain ⟨p', hr⟩ := readInteger_malformed hc ha
      rw [readElement, if_pos hs, hr]
      exact ⟨by decide, _, _, rfl⟩
    | size n rest =>
      have hr := readInteger_size hc ha
      obtain ⟨hn1, hn2⟩ := announced_range ha
      -- The parser once the size is read.
      obtain ⟨q, hq⟩ : ∃ q, q = ({ p with reader := rest } : RedisParser Bytes).startElement n :=
        ⟨_, rfl⟩
      have hqr : q.reader = rest := by rw [hq]; rfl
      have hqs : q.element_size = n := by rw [hq]; rfl
      have hqz : q.encounteredZeroSize = (p.encounteredZeroSize || decide (n = 0)) := by
        rw [hq]; rfl
      have he : p.readElement authenticated = q.readSized authenticated := by
        rw [readElement, if_pos hs, hr, hq]
        rfl
      rw [he, readSized_eq authenticated (by omega) (by omega), hqs, hqr]
      dsimp only
      by_cases hm : n = -1
      · rw [if_pos hm, if_pos hm]
        by_cases hnil : rest = []
        · rw [if_pos hnil, if_pos hnil]
          exact ⟨_, _, rfl⟩
        · rw [if_neg hnil, if_neg hnil]
          rfl
      rw [if_neg hm, if_neg hm]
      by_cases hbig : (!authenticated && 1048576 ≤ n) = true
      · rw [if_pos hbig, if_pos hbig]
        exact ⟨by decide, _, _, rfl⟩
      rw [if_neg hbig, if_neg hbig]
      by_cases hw : Endless n ∨ (rest.length : Int) < n + 2
      · rw [if_pos hw, if_pos hw]
        exact ⟨_, _, rfl⟩
      rw [if_neg hw, if_neg hw]
      by_cases hcrlf : (rest.drop n.toNat).take 2 = [carriage, newline]
      · rw [if_pos hcrlf, if_pos hcrlf]
        simp only [Endless] at hw
        have hrc : ¬ n + 2 ≤ 0 := by omega
        have hqe : q.current_element = before.length := by rw [hq]; exact hb
        have hset : (before ++ List.replicate (left + 1) []).set q.current_element
            (rest.take n.toNat) =
            before ++ [rest.take n.toNat] ++ List.replicate left [] := by
          rw [hqe, List.set_append_right _ _ (Nat.le_refl _), Nat.sub_self, List.replicate_succ,
            List.set_cons_zero, List.append_assoc, List.singleton_append]
        -- The parser once the element is read.
        obtain ⟨q', hq'⟩ : ∃ q', q' =
            ({ q with reader := rest.drop (n.toNat + 2) } : RedisParser Bytes).nextElement :=
          ⟨_, rfl⟩
        have hstep := @ih q' (before ++ [rest.take n.toNat]) (by rw [hq']; rfl)
          (by rw [hq', hq]; exact hc) (by simp [hq', nextElement, hqe])
        have hqr' : q'.reader = rest.drop (n.toNat + 2) := by rw [hq']; rfl
        rw [hqr', ← hset, hq'] at hstep
        apply ReadsElements.cons (q := q')
        · rw [hq']
          exact hqz
        · show ReadsElements q' _ (if n + 2 ≤ 0 then _ else _) _
          rw [if_neg hrc, hq']
          exact hstep
      · rw [if_neg hcrlf, if_neg hcrlf]
        exact ⟨by decide, _, _, rfl⟩

/-- A parser between two requests. -/
structure Fresh (p : RedisParser Bytes) : Prop where
  request_size : p.request_size = 0
  encounteredZeroSize : p.encounteredZeroSize = false
  current_integer : p.current_integer = []

/-- The result of `fetch` is the one that belongs to this reading of the stream. -/
def ReadsRequest (result : Except FetchFault (Int × RedisParser Bytes × RedisRequest)) :
    Reading → Prop
  | .request parts rest => ∃ p', result = .ok (1, p', parts) ∧ Fresh p' ∧ p'.reader = rest
  | .unfinished => ∃ p' req', result = .ok (0, p', req')
  | .rejected status => status < 0 ∧ ∃ p' req', result = .ok (status, p', req')
  | .fault fault => result = .error fault

/-- The request that `fetch` reads from the start of a request is the one that the stream
holds. -/
theorem fetch_fresh (authenticated : Bool) (hp : Fresh p) (req : RedisRequest) :
    ReadsRequest (p.fetch authenticated req) (reading authenticated p.reader) := by
  rw [fetch, if_pos hp.request_size, reading]
  cases ha : announced 42 p.reader with
  | unfinished =>
    rw [readInteger_unfinished 42 (not_mem_of_unfinished ha)]
    exact ⟨_, _, rfl⟩
  | malformed =>
    obtain ⟨p', hr⟩ := readInteger_malformed hp.current_integer ha
    rw [hr]
    exact ⟨by decide, _, _, rfl⟩
  | size n rest =>
    rw [readInteger_size hp.current_integer ha]
    dsimp only
    rw [if_neg (by decide)]
    by_cases hbig : (!authenticated && 5 ≤ n) = true
    · rw [if_pos hbig, if_pos hbig]
      exact ⟨by decide, _, _, rfl⟩
    rw [if_neg hbig, if_neg hbig]
    by_cases hneg : n < 0
    · rw [if_pos hneg, if_pos hneg]
      rfl
    rw [if_neg hneg, if_neg hneg]
    -- The parser once the size is read.
    obtain ⟨q, hq⟩ : ∃ q, q = ({ p with reader := rest } : RedisParser Bytes).startRequest n :=
      ⟨_, rfl⟩
    have hqr : q.reader = rest := by rw [hq]; rfl
    have hleft : (q.request_size - q.current_element).toNat = n.toNat := by
      simp [hq, startRequest]
    have hes := @readElements_fresh q authenticated n.toNat [] (by rw [hq]; rfl)
      (by rw [hq]; exact hp.current_integer) (by rw [hq]; rfl)
    rw [← hq, readRequest, hleft]
    rw [List.nil_append, hqr] at hes
    cases he : elements authenticated n.toNat rest with
    | unfinished =>
      rw [he] at hes
      obtain ⟨p', req', h⟩ := hes
      rw [h]
      exact ⟨_, _, rfl⟩
    | rejected status =>
      rw [he] at hes
      obtain ⟨hs, p', req', h⟩ := hes
      rw [h]
      refine ⟨hs, p', req', ?_⟩
      show (if status ≤ 0 then _ else _) = _
      rw [if_pos (by omega)]
      rfl
    | minusOne =>
      rw [he] at hes
      rw [hes]
      rfl
    | done parts zeroSize rest' =>
      rw [he] at hes
      obtain ⟨p', h, h1, h2, h3⟩ := hes
      have hz : p'.encounteredZeroSize = zeroSize := by
        rw [h3, hq]
        simp [startRequest, hp.encounteredZeroSize]
      rw [h]
      show ReadsRequest (if p'.encounteredZeroSize then _ else _) _
      rw [hz]
      cases zeroSize with
      | false => exact ⟨_, rfl, ⟨rfl, rfl, h2⟩, h1⟩
      | true =>
        dsimp only [List.nil_append]
        rw [if_pos rfl]
        cases toPrintableString parts with
        | ok u => exact ⟨by decide, _, _, rfl⟩
        | error fault => rfl

end RedisParser

end quarkdb
