-- The parser of requests: a state machine that takes up where it stopped when the
-- link was slow. It reads from any source of bytes, and what it does depends only
-- on the bytes, not on how the source keeps them.
import QuarkDB.BufferedReader
import QuarkDB.Transaction
import QuarkDB.Feeding

namespace quarkdb

/-! ## Printing a request

A rejected request is logged, and printing it unpacks a transaction. The text is left
out; what matters is if printing throws. -/

def partsSize (req : RedisRequest) : Nat := (req.map List.length).sum

namespace Transaction

theorem readParts_size {n : Nat} {src rest : Bytes} {parts : RedisRequest}
    (h : readParts n src = .ok (parts, rest)) : partsSize parts + rest.length ≤ src.length := by
  induction n generalizing src parts with
  | zero =>
    cases h
    simp [partsSize]
  | succ n ih =>
    obtain ⟨⟨part, mid⟩, hchunk, h⟩ := ok_of_bind h
    obtain ⟨⟨others, rest'⟩, hrest, h⟩ := ok_of_bind h
    cases h
    have h1 := readChunk_length hchunk
    have h2 := ih hrest
    simp only [partsSize, List.map_cons, List.sum_cons] at h2 ⊢
    omega

theorem readRequest_size {src rest : Bytes} {req : RedisRequest}
    (h : readRequest src = .ok (req, rest)) : partsSize req + rest.length < src.length := by
  obtain ⟨⟨total, mid⟩, hb, h⟩ := ok_of_bind h
  obtain ⟨h1, h2⟩ := readBytes_ok hb
  have h3 := readParts_size h
  rw [h1, List.length_append]
  omega

theorem pushBack_requests {tx tx' : Transaction} {req : RedisRequest}
    (h : tx.pushBack req = .ok tx') : tx'.requests = tx.requests ++ [req] := by
  unfold pushBack at h
  split at h
  · cases h
    rfl
  · cases h

theorem readRequests_size {n : Nat} {tx tx' : Transaction} {src : Bytes}
    (h : readRequests n tx src = .ok tx') {r : RedisRequest} (hr : r ∈ tx'.requests) :
    r ∈ tx.requests ∨ partsSize r < src.length := by
  induction n generalizing tx src with
  | zero =>
    cases h
    exact Or.inl hr
  | succ n ih =>
    obtain ⟨⟨req, rest⟩, hreq, h⟩ := ok_of_bind h
    obtain ⟨tx₁, hpush, h⟩ := ok_of_bind h
    have hsize := readRequest_size hreq
    rcases ih h with hin | hlt
    · rw [pushBack_requests hpush] at hin
      rcases List.mem_append.mp hin with hin | hin
      · exact Or.inl hin
      · rw [List.mem_singleton.mp hin]
        exact Or.inr (by omega)
    · exact Or.inr (by omega)

/-- `fromRedisRequest`. -/
def fromRedisRequest (req : RedisRequest) : Except Fault Transaction := do
  qdbAssert (getCommand req = .TX_READONLY || getCommand req = .TX_READWRITE)
    "req.getCommand() == RedisCommand::TX_READONLY || req.getCommand() == RedisCommand::TX_READWRITE"
  match req with
  | [_, payload, kind] =>
    match ← deserializePayload payload with
    | none => .error (.assertion "deserialize(req[1])")
    | some tx =>
      if kind = ascii "phantom" then return tx.setPhantom true
      else if kind = ascii "real" then return tx.setPhantom false
      else .error (.thrown "should never happen")
  | _ => .error (.assertion "req.size() == 3")

theorem fromRedisRequest_size {req : RedisRequest} {tx : Transaction}
    (h : fromRedisRequest req = .ok tx) {r : RedisRequest} (hr : r ∈ tx.requests) :
    partsSize r < partsSize req := by
  obtain ⟨_, -, h⟩ := ok_of_bind h
  split at h
  · next name payload kind =>
    obtain ⟨result, hd, h⟩ := ok_of_bind h
    have htx : ∃ tx₁, result = some tx₁ ∧ tx.requests = tx₁.requests := by
      cases result with
      | none => cases h
      | some tx₁ =>
        refine ⟨tx₁, rfl, ?_⟩
        dsimp only at h
        split at h
        · cases h; rfl
        · split at h
          · cases h; rfl
          · cases h
    obtain ⟨tx₁, rfl, hreq⟩ := htx
    rw [hreq] at hr
    unfold deserializePayload at hd
    split at hd
    · cases hd
    · obtain ⟨⟨total, rest⟩, hb, hd⟩ := ok_of_bind hd
      obtain ⟨h1, h2⟩ := readBytes_ok hb
      dsimp only at hd
      split at hd
      · cases hd
      · obtain ⟨tx₂, hread, hd⟩ := ok_of_bind hd
        cases hd
        rcases readRequests_size hread hr with hin | hlt
        · cases hin
        · simp only [partsSize, List.map_cons, List.sum_cons, h1, List.length_append] at hlt ⊢
          omega
  · cases h

end Transaction

/-- `toPrintableString`, of a request and of the requests packed in it. -/
def toPrintableString (req : RedisRequest) : Except Fault Unit :=
  if getCommand req = .TX_READONLY ∨ getCommand req = .TX_READWRITE then
    match _h : Transaction.fromRedisRequest req with
    | .error e => .error e
    | .ok tx => tx.requests.attach.forM fun r => toPrintableString r.1
  else .ok ()
termination_by partsSize req
decreasing_by exact Transaction.fromRedisRequest_size _h r.2

theorem toPrintableString_plain {req : RedisRequest} (h1 : getCommand req ≠ .TX_READONLY)
    (h2 : getCommand req ≠ .TX_READWRITE) : toPrintableString req = .ok () := by
  unfold toPrintableString
  rw [if_neg (by simp [h1, h2])]

/-! ## The parser -/

/-- The saved fields say where the parser stopped: `request_size` is 0 between requests,
`element_size` is -1 before the size of an element is read, and `current_integer` holds
the part of a line that has arrived. -/
structure RedisParser (ρ : Type) where
  reader : ρ
  request_size : Int
  current_element : Nat
  element_size : Int
  encounteredZeroSize : Bool
  current_integer : Bytes
  deriving DecidableEq

/-- Why `fetch` does not return. -/
inductive FetchFault
  /-- `resize` to a negative size throws a `std::length_error`. -/
  | lengthError
  /-- `str[str.size()-2]` of a string of one byte. -/
  | outOfBounds
  /-- Printing a rejected request threw. -/
  | printing (fault : Fault)
  deriving Repr, DecidableEq

/-- The number of a line, which ends in '\n': the prefix, then what `strtol` reads up to
the first zero byte, then '\r'. It is stored in an `int`. -/
def lineInteger (pfx : UInt8) (line : Bytes) : Option Int :=
  if line.head? ≠ some pfx ∨ line.dropLast.getLast? ≠ some carriage then none
  else (parseInt64 (line.dropLast.dropLast.tail.takeWhile (· ≠ 0))).map toInt

namespace RedisParser

/-- What `RedisParser(Link*)` reads from: blocks of 32 KiB. -/
def onLink : BufferedReader := BufferedReader.onLink (1024 * 32) (by decide) (by decide)

open ByteSource

variable {ρ : Type} [ByteSource ρ]

/-- The constructor. -/
def onReader (reader : ρ) : RedisParser ρ :=
  { reader, request_size := 0, current_element := 0, element_size := 0
    encounteredZeroSize := false, current_integer := [] }

/-- One more byte of a line has been read. -/
def appendInteger (p : RedisParser ρ) (prev : Bytes) (reader : ρ) : RedisParser ρ :=
  { p with reader, current_integer := p.current_integer ++ prev }

/-- The size of a request has been read. -/
def startRequest (p : RedisParser ρ) (size : Int) : RedisParser ρ :=
  { p with request_size := size, element_size := -1, current_element := 0 }

/-- The size of an element has been read. -/
def startElement (p : RedisParser ρ) (size : Int) : RedisParser ρ :=
  { p with element_size := size, encounteredZeroSize := p.encounteredZeroSize || size = 0 }

/-- An element has been read. -/
def nextElement (p : RedisParser ρ) : RedisParser ρ :=
  { p with element_size := -1, current_element := p.current_element + 1 }

/-- The loop of `readInteger`: it goes byte by byte. No more bytes than there are can be
read, so the fuel does not run out. -/
def readLine : Nat → RedisParser ρ → Int × RedisParser ρ
  | 0, p => (0, p)
  | fuel + 1, p =>
    match consume 1 p.reader with
    | (rlen, prev, reader) =>
      if rlen ≤ 0 then (rlen, { p with reader })
      else if prev.head? = some newline then (1, p.appendInteger prev reader)
      else readLine fuel (p.appendInteger prev reader)

/-- `readInteger`: the status, and the number if the status is 1. -/
def readInteger (pfx : UInt8) (p : RedisParser ρ) : Int × Int × RedisParser ρ :=
  match p.readLine ((unread p.reader).length + 1) with
  | (rlen, p) =>
    if rlen ≤ 0 then (rlen, 0, p)
    else
      match lineInteger pfx p.current_integer with
      | none => (-1, 0, p)
      | some n => (1, n, { p with current_integer := [] })

/-- The checks of `readString` on what it has consumed. -/
def checkString (rlen : Int) (str : Bytes) (p : RedisParser ρ) :
    Except FetchFault (Int × Bytes × RedisParser ρ) :=
  if rlen ≤ 0 then .ok (rlen, str, p)
  else if str.length < 2 then .error .outOfBounds
  else if str.dropLast.getLast? ≠ some carriage then .ok (-1, str, p)
  else if str.getLast? ≠ some newline then .ok (-1, str, p)
  else .ok (rlen, str.dropLast.dropLast, p)

/-- `readString`: the bytes and what follows them. A length below -2 is a `size_t` that
no buffer reaches, and so is one above `INT_MAX - 2`. -/
def readString (nbytes : Int) (p : RedisParser ρ) : Except FetchFault (Int × Bytes × RedisParser ρ) :=
  match consumePinned (toInt (nbytes + 2)) p.reader with
  | (rlen, str, reader) => checkString rlen str { p with reader }

def readSized (authenticated : Bool) (p : RedisParser ρ) :
    Except FetchFault (Int × Bytes × RedisParser ρ) :=
  if !authenticated && 1048576 ≤ p.element_size then .ok (-2, [], p)
  else p.readString p.element_size

def readElement (authenticated : Bool) (p : RedisParser ρ) :
    Except FetchFault (Int × Bytes × RedisParser ρ) :=
  if p.element_size = -1 then
    match p.readInteger 36 with
    | (rc, size, p) =>
      if rc ≤ 0 then .ok (rc, [], p)
      else (p.startElement size).readSized authenticated
  else p.readSized authenticated

/-- The loop over the elements that are left. -/
def readElements (authenticated : Bool) :
    Nat → RedisParser ρ → RedisRequest → Except FetchFault (Int × RedisParser ρ × RedisRequest)
  | 0, p, req => .ok (1, p, req)
  | left + 1, p, req => do
    let (rc, str, p) ← p.readElement authenticated
    if rc ≤ 0 then return (rc, p, req)
    else readElements authenticated left p.nextElement (req.set p.current_element str)

/-- The rest of `fetch` once the size of the request is known. -/
def readRequest (authenticated : Bool) (p : RedisParser ρ) (req : RedisRequest) :
    Except FetchFault (Int × RedisParser ρ × RedisRequest) := do
  let (rc, p, req) ←
    readElements authenticated (p.request_size - p.current_element).toNat p req
  if rc ≤ 0 then return (rc, p, req)
  else
    let p := { p with request_size := 0 }
    if p.encounteredZeroSize then
      match toPrintableString req with
      | .ok () => return (-2, p, req)
      | .error fault => .error (.printing fault)
    else return (1, p, req)

/-- `fetch`: the status, the parser, and the request as far as it has been read. A
negative size makes `resize` throw. -/
def fetch (authenticated : Bool) (p : RedisParser ρ) (req : RedisRequest) :
    Except FetchFault (Int × RedisParser ρ × RedisRequest) :=
  if p.request_size = 0 then
    match p.readInteger 42 with
    | (rc, size, p) =>
      if rc ≤ 0 then .ok (rc, p, [])
      else if !authenticated && 5 ≤ size then .ok (-2, p.startRequest size, [])
      else if size < 0 then .error .lengthError
      else (p.startRequest size).readRequest authenticated (List.replicate size.toNat [])
  else p.readRequest authenticated req

/-! ## The same parser on a plain string -/

/-- The parser as it would be if its source were a plain string. -/
def onBytes (p : RedisParser ρ) : RedisParser Bytes := { p with reader := unread p.reader }

/-- The sizes of elements that a stream announces, wherever it does, are ones that can be asked
for, with the two bytes behind the element. -/
def Announces (allowed : Int → Prop) (s : Bytes) : Prop :=
  ∀ line size, line <:+: s → lineInteger 36 line = some size → allowed (toInt (size + 2))

theorem Announces.of_infix {allowed : Int → Prop} {s t : Bytes} (h : Announces allowed s)
    (ht : t <:+: s) : Announces allowed t :=
  fun line size hl hsize => h line size (hl.trans ht) hsize

/-- An `int` can count what is read of the stream: it has less than 2 GiB, or no line in it,
wherever it stands, announces an element that is below -2 or nearly as large. -/
def WithinInt (s : Bytes) : Prop := s.length < 2 ^ 31 ∨ Announces BufferedReader.Askable s

/-- The parser can go on with what is left of the stream: its source is fit, and no size is too
large to be asked for. -/
structure Fit (fit : ρ → Prop) (allowed : Int → Prop) (rest : Bytes) (p : RedisParser ρ) : Prop where
  reader : fit p.reader
  lines : Announces allowed (p.current_integer ++ (unread p.reader ++ rest))
  size : allowed (toInt (p.element_size + 2))

/-- Between two elements or in the line before one: no line is kept while an element is read. -/
def Idle (p : RedisParser ρ) : Prop := p.element_size = -1 ∨ p.current_integer = []

/-- The result of a call, with the parser as on a plain string. -/
def resultOnBytes {α : Type} (result : Int × α × RedisParser ρ) : Int × α × RedisParser Bytes :=
  (result.1, result.2.1, result.2.2.onBytes)

/-- The result of `fetch`, with the parser as on a plain string. -/
def fetchedOnBytes (result : Int × RedisParser ρ × RedisRequest) :
    Int × RedisParser Bytes × RedisRequest :=
  (result.1, result.2.1.onBytes, result.2.2)

/-- What is consumed and what is left are the string, and only a positive status comes with
bytes. -/
theorem pull_moves (len : Int) (s : Bytes) :
    (pull len s).2.1 ++ (pull len s).2.2 = s ∧ ((pull len s).1 ≤ 0 → (pull len s).2.1 = []) := by
  unfold pull
  split
  · exact ⟨List.take_append_drop _ _, fun h => by dsimp only at h; omega⟩
  · exact ⟨rfl, fun _ => rfl⟩

theorem readLine_request_size (fuel : Nat) (p : RedisParser ρ) :
    (p.readLine fuel).2.request_size = p.request_size := by
  induction fuel generalizing p with
  | zero => rfl
  | succ fuel ih =>
    unfold readLine
    dsimp only
    split
    · rfl
    split
    · rfl
    · exact ih _

theorem readInteger_request_size (pfx : UInt8) (p : RedisParser ρ) :
    (p.readInteger pfx).2.2.request_size = p.request_size := by
  have h := readLine_request_size ((unread p.reader).length + 1) p
  unfold readInteger
  dsimp only
  split
  · exact h
  split
  · exact h
  · exact h

section

variable {fit : ρ → Prop} {allowed : Int → Prop} {rest : Bytes} (ht : Transparent fit allowed)
  (hone : allowed 1)

include ht

theorem consume_onBytes {len : Int} {r : ρ} (hl : allowed len) (hr : fit r) :
    consume len (unread r) =
      ((consume len r).1, (consume len r).2.1, unread (consume len r).2.2) :=
  (ht.consume len r hl hr).1.symm

theorem consumePinned_onBytes {len : Int} {r : ρ} (hl : allowed len) (hr : fit r) :
    consumePinned len (unread r) =
      ((consumePinned len r).1, (consumePinned len r).2.1, unread (consumePinned len r).2.2) :=
  (ht.consumePinned len r hl hr).1.symm

include hone

theorem readLine_onBytes (fuel : Nat) {p : RedisParser ρ} (hp : p.Fit fit allowed rest) :
    p.onBytes.readLine fuel = ((p.readLine fuel).1, (p.readLine fuel).2.onBytes) ∧
      (p.readLine fuel).2.Fit fit allowed rest ∧
      (p.readLine fuel).2.element_size = p.element_size := by
  induction fuel generalizing p with
  | zero => exact ⟨rfl, hp, rfl⟩
  | succ fuel ih =>
    have hf : p.onBytes.reader = unread p.reader := rfl
    have hc := consume_onBytes ht hone hp.reader
    have hfit := (ht.consume 1 p.reader hone hp.reader).2
    obtain ⟨hparts, hnone⟩ := pull_moves 1 (unread p.reader)
    rw [show pull 1 (unread p.reader) = consume 1 (unread p.reader) from rfl, hc] at hparts hnone
    unfold readLine
    rw [hf, hc]
    generalize consume 1 p.reader = got at hparts hnone hfit ⊢
    obtain ⟨rlen, prev, reader⟩ := got
    dsimp only at hparts hnone hfit ⊢
    have happend : (p.appendInteger prev reader).Fit fit allowed rest := by
      refine ⟨hfit, ?_, hp.size⟩
      have hl := hp.lines
      rw [← hparts] at hl
      simpa only [appendInteger, List.append_assoc] using hl
    split
    · next h0 =>
      refine ⟨rfl, ⟨hfit, ?_, hp.size⟩, rfl⟩
      have hl := hp.lines
      rw [← hparts, hnone h0, List.nil_append] at hl
      exact hl
    split
    · exact ⟨rfl, happend, rfl⟩
    · exact ih happend

theorem readInteger_onBytes (pfx : UInt8) {p : RedisParser ρ} (hp : p.Fit fit allowed rest) :
    p.onBytes.readInteger pfx =
        ((p.readInteger pfx).1, (p.readInteger pfx).2.1, (p.readInteger pfx).2.2.onBytes) ∧
      (p.readInteger pfx).2.2.Fit fit allowed rest ∧
      (p.readInteger pfx).2.2.element_size = p.element_size ∧
      (0 < (p.readInteger pfx).1 → (p.readInteger pfx).2.2.current_integer = [] ∧
        (pfx = 36 → allowed (toInt ((p.readInteger pfx).2.1 + 2)))) := by
  have hf : unread p.onBytes.reader = unread p.reader := rfl
  obtain ⟨heq, hfit, hsame⟩ := readLine_onBytes ht hone ((unread p.reader).length + 1) hp
  unfold readInteger
  rw [hf, heq]
  generalize p.readLine ((unread p.reader).length + 1) = line at *
  obtain ⟨rlen, q⟩ := line
  have hc : q.onBytes.current_integer = q.current_integer := rfl
  dsimp only at hfit hsame ⊢
  rw [hc]
  split
  · exact ⟨rfl, hfit, hsame, fun h => absurd h (by dsimp only; omega)⟩
  cases hn : lineInteger pfx q.current_integer with
  | none => exact ⟨rfl, hfit, hsame, fun h => absurd h (by dsimp only; decide)⟩
  | some n =>
    refine ⟨rfl, ⟨hfit.reader, hfit.lines.of_infix ?_, hfit.size⟩, hsame, fun _ => ⟨rfl, ?_⟩⟩
    · exact (List.suffix_append q.current_integer _).isInfix
    · rintro rfl
      exact hfit.lines _ n (List.prefix_append _ _).isInfix hn

omit hone

theorem readString_onBytes {nbytes : Int} (hn : allowed (toInt (nbytes + 2))) {p : RedisParser ρ}
    (hp : p.Fit fit allowed rest) (hline : p.current_integer = []) :
    p.onBytes.readString nbytes = (p.readString nbytes).map resultOnBytes ∧
      ∀ rc str q, p.readString nbytes = .ok (rc, str, q) →
        q.Fit fit allowed rest ∧ q.current_integer = [] := by
  have hf : p.onBytes.reader = unread p.reader := rfl
  have hc := consumePinned_onBytes ht hn hp.reader
  have hfit := (ht.consumePinned _ p.reader hn hp.reader).2
  obtain ⟨hparts, -⟩ := pull_moves (toInt (nbytes + 2)) (unread p.reader)
  rw [show pull (toInt (nbytes + 2)) (unread p.reader) =
    consumePinned (toInt (nbytes + 2)) (unread p.reader) from rfl, hc] at hparts
  unfold readString
  rw [hf, hc]
  generalize consumePinned (toInt (nbytes + 2)) p.reader = got at hparts hfit ⊢
  obtain ⟨rlen, str, reader⟩ := got
  dsimp only at hparts hfit ⊢
  have hnext : RedisParser.Fit fit allowed rest { p with reader } := by
    refine ⟨hfit, ?_, hp.size⟩
    have hl := hp.lines
    rw [hline, List.nil_append, ← hparts, List.append_assoc] at hl
    dsimp only
    rw [hline, List.nil_append]
    exact hl.of_infix (List.suffix_append str _).isInfix
  unfold checkString
  constructor
  · repeat' split
    all_goals rfl
  · intro rc str' q h
    repeat' split at h
    all_goals cases h
    all_goals exact ⟨hnext, hline⟩

theorem readSized_onBytes (authenticated : Bool) {p : RedisParser ρ}
    (hp : p.Fit fit allowed rest) (hline : p.current_integer = []) :
    p.onBytes.readSized authenticated = (p.readSized authenticated).map resultOnBytes ∧
      ∀ rc str q, p.readSized authenticated = .ok (rc, str, q) →
        q.Fit fit allowed rest ∧ q.current_integer = [] := by
  have hf : p.onBytes.element_size = p.element_size := rfl
  unfold readSized
  rw [hf]
  split
  · refine ⟨rfl, fun rc str q h => ?_⟩
    cases h
    exact ⟨hp, hline⟩
  · exact readString_onBytes ht hp.size hp hline

include hone

theorem readElement_onBytes (authenticated : Bool) {p : RedisParser ρ}
    (hp : p.Fit fit allowed rest) (hidle : p.Idle) :
    p.onBytes.readElement authenticated = (p.readElement authenticated).map resultOnBytes ∧
      ∀ rc str q, p.readElement authenticated = .ok (rc, str, q) →
        q.Fit fit allowed rest ∧ q.Idle := by
  have hf : p.onBytes.element_size = p.element_size := rfl
  unfold readElement
  rw [hf]
  split
  · next h1 =>
    obtain ⟨heq, hfit, hsame, hdone⟩ := readInteger_onBytes ht hone 36 hp
    rw [heq]
    generalize p.readInteger 36 = read at *
    obtain ⟨rc, size, q⟩ := read
    dsimp only at hfit hsame hdone ⊢
    split
    · refine ⟨rfl, fun rc str q h => ?_⟩
      cases h
      exact ⟨hfit, .inl (hsame.trans h1)⟩
    · next hrc =>
      obtain ⟨hline, hsize⟩ := hdone (by omega)
      obtain ⟨h1, h2⟩ := readSized_onBytes ht authenticated (p := q.startElement size)
        ⟨hfit.reader, hfit.lines, hsize rfl⟩ hline
      exact ⟨h1, fun rc str q h => ⟨(h2 rc str q h).1, .inr (h2 rc str q h).2⟩⟩
  · next h1 =>
    obtain ⟨h1, h2⟩ := readSized_onBytes ht authenticated hp (hidle.resolve_left h1)
    exact ⟨h1, fun rc str q h => ⟨(h2 rc str q h).1, .inr (h2 rc str q h).2⟩⟩

theorem readElements_onBytes (authenticated : Bool) (left : Nat) {p : RedisParser ρ}
    (req : RedisRequest) (hp : p.Fit fit allowed rest) (hidle : p.Idle) :
    readElements authenticated left p.onBytes req =
        (readElements authenticated left p req).map fetchedOnBytes ∧
      ∀ rc q req', readElements authenticated left p req = .ok (rc, q, req') →
        q.Fit fit allowed rest ∧ q.Idle := by
  induction left generalizing p req with
  | zero =>
    refine ⟨rfl, fun rc q req' h => ?_⟩
    cases h
    exact ⟨hp, hidle⟩
  | succ left ih =>
    obtain ⟨heq, hnext⟩ := readElement_onBytes ht hone authenticated hp hidle
    rw [readElements, readElements, heq]
    cases hread : p.readElement authenticated with
    | error e => exact ⟨rfl, fun rc q req' h => by cases h⟩
    | ok result =>
      obtain ⟨rc, str, q⟩ := result
      obtain ⟨hfit, hq⟩ := hnext rc str q hread
      show (if rc ≤ 0 then _ else _) = Except.map _ (if rc ≤ 0 then _ else _) ∧
        ∀ _ _ _, (if rc ≤ 0 then _ else _) = _ → _
      split
      · refine ⟨rfl, fun rc q req' h => ?_⟩
        cases h
        exact ⟨hfit, hq⟩
      · exact @ih q.nextElement (req.set q.current_element str)
          ⟨hfit.reader, hfit.lines, hone⟩ (.inl rfl)

theorem readRequest_onBytes (authenticated : Bool) {p : RedisParser ρ} (req : RedisRequest)
    (hp : p.Fit fit allowed rest) (hidle : p.Idle) :
    p.onBytes.readRequest authenticated req =
        (p.readRequest authenticated req).map fetchedOnBytes ∧
      ∀ rc q req', p.readRequest authenticated req = .ok (rc, q, req') →
        q.Fit fit allowed rest ∧ (q.request_size ≠ 0 → q.Idle) := by
  have h1 : p.onBytes.request_size = p.request_size := rfl
  have h2 : p.onBytes.current_element = p.current_element := rfl
  obtain ⟨heq, hnext⟩ := readElements_onBytes ht hone authenticated
    (p.request_size - p.current_element).toNat req hp hidle
  rw [readRequest, readRequest, h1, h2, heq]
  cases hread : readElements authenticated (p.request_size - p.current_element).toNat p req with
  | error e => exact ⟨rfl, fun rc q req' h => by cases h⟩
  | ok result =>
    obtain ⟨rc, q, req'⟩ := result
    obtain ⟨hfit, hq⟩ := hnext rc q req' hread
    have hdone : RedisParser.Fit fit allowed rest { q with request_size := 0 } :=
      ⟨hfit.reader, hfit.lines, hfit.size⟩
    show (if rc ≤ 0 then _ else _) = Except.map _ (if rc ≤ 0 then _ else _) ∧
      ∀ _ _ _, (if rc ≤ 0 then _ else _) = _ → _
    split
    · refine ⟨rfl, fun rc q req' h => ?_⟩
      cases h
      exact ⟨hfit, fun _ => hq⟩
    · show (if q.encounteredZeroSize then _ else _) =
          Except.map _ (if q.encounteredZeroSize then _ else _) ∧
        ∀ _ _ _, (if q.encounteredZeroSize then _ else _) = _ → _
      split
      · cases toPrintableString req' with
        | error fault => exact ⟨rfl, fun rc q req' h => by cases h⟩
        | ok printed =>
          refine ⟨rfl, fun rc q req' h => ?_⟩
          cases h
          exact ⟨hdone, fun h => absurd rfl h⟩
      · refine ⟨rfl, fun rc q req' h => ?_⟩
        cases h
        exact ⟨hdone, fun h => absurd rfl h⟩

/-- How the source keeps its bytes does not show in what `fetch` does. -/
theorem fetch_onBytes (authenticated : Bool) {p : RedisParser ρ} (req : RedisRequest)
    (hp : p.Fit fit allowed rest) (hidle : p.request_size ≠ 0 → p.Idle) :
    p.onBytes.fetch authenticated req = (p.fetch authenticated req).map fetchedOnBytes ∧
      ∀ rc q req', p.fetch authenticated req = .ok (rc, q, req') →
        q.Fit fit allowed rest ∧ (q.request_size ≠ 0 → q.Idle) := by
  have hf : p.onBytes.request_size = p.request_size := rfl
  unfold fetch
  rw [hf]
  split
  · next h0 =>
    obtain ⟨heq, hfit, hsame, hdone⟩ := readInteger_onBytes ht hone 42 hp
    have hkept := readInteger_request_size 42 p
    rw [heq]
    generalize p.readInteger 42 = read at *
    obtain ⟨rc, size, q⟩ := read
    dsimp only at hfit hdone hkept ⊢
    have hstart : (q.startRequest size).Fit fit allowed rest := ⟨hfit.reader, hfit.lines, hone⟩
    split
    · refine ⟨rfl, fun rc q req' h => ?_⟩
      cases h
      exact ⟨hfit, fun h => absurd (hkept.trans h0) h⟩
    split
    · refine ⟨rfl, fun rc q req' h => ?_⟩
      cases h
      exact ⟨hstart, fun _ => .inl rfl⟩
    split
    · exact ⟨rfl, fun rc q req' h => by cases h⟩
    · exact readRequest_onBytes ht hone authenticated _ hstart (.inl rfl)
  · next h0 => exact readRequest_onBytes ht hone authenticated req hp (hidle h0)

end

theorem fetched_of_onBytes {result : Except FetchFault (Int × RedisParser ρ × RedisRequest)}
    {rc : Int} {p : RedisParser Bytes} {req : RedisRequest}
    (h : result.map fetchedOnBytes = .ok (rc, p, req)) :
    ∃ q, result = .ok (rc, q, req) ∧ q.onBytes = p := by
  cases result with
  | error fault => cases h
  | ok r =>
    cases h
    exact ⟨r.2.1, rfl, rfl⟩

theorem fault_of_onBytes {result : Except FetchFault (Int × RedisParser ρ × RedisRequest)}
    {fault : FetchFault} (h : result.map fetchedOnBytes = .error fault) :
    result = .error fault := by
  cases result with
  | error fault' => cases h; rfl
  | ok r => cases h

end RedisParser

end quarkdb
