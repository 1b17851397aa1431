-- Transactions, and how they become one request of the journal: a single
-- request as it is, several of them packed into a TX_READWRITE. What was packed
-- and written to the journal reads back as it was.
import QuarkDB.Commands
import QuarkDB.Endian

namespace quarkdb

open Endian

/-! ## Reading from a buffer -/

theorem bind_of_ok {α β : Type} {x : Except Fault α} {a : α} (h : x = .ok a)
    (f : α → Except Fault β) : (x >>= f) = f a := by
  rw [h]
  rfl

theorem ok_of_bind {α β : Type} {x : Except Fault α} {f : α → Except Fault β} {b : β}
    (h : (x >>= f) = .ok b) : ∃ a, x = .ok a ∧ f a = .ok b := by
  cases x with
  | error e => cases h
  | ok a => exact ⟨a, rfl, h⟩

/-- Read so many bytes; past the end the read is undefined. -/
def readBytes (n : Nat) (src : Bytes) : Except Fault (Bytes × Bytes) :=
  if n ≤ src.length then .ok (src.take n, src.drop n) else .error .outOfBounds

/-- Read a length and the bytes that follow. A negative length is a huge `size_t`. -/
def readChunk (decode : Bytes → Int) (src : Bytes) : Except Fault (Bytes × Bytes) := do
  let (len, rest) ← readBytes 8 src
  if decode len < 0 then .error .outOfBounds
  else readBytes (decode len).toNat rest

theorem readBytes_append {a : Bytes} {n : Nat} (h : a.length = n) (rest : Bytes) :
    readBytes n (a ++ rest) = .ok (a, rest) := by
  unfold readBytes
  rw [if_pos (by rw [List.length_append]; omega), ← h, List.take_left, List.drop_left]

theorem readBytes_ok {n : Nat} {src a rest : Bytes} (h : readBytes n src = .ok (a, rest)) :
    src = a ++ rest ∧ a.length = n := by
  unfold readBytes at h
  split at h
  · cases h
    exact ⟨(List.take_append_drop n src).symm, by rw [List.length_take]; omega⟩
  · cases h

theorem readChunk_append {decode : Bytes → Int} {len a : Bytes} (hl : len.length = 8)
    (hd : decode len = a.length) (rest : Bytes) :
    readChunk decode (len ++ (a ++ rest)) = .ok (a, rest) := by
  unfold readChunk
  rw [readBytes_append hl]
  show (if decode len < 0 then _ else readBytes (decode len).toNat (a ++ rest)) = _
  rw [hd, if_neg (by omega), Int.toNat_natCast, readBytes_append rfl]

theorem readChunk_length {decode : Bytes → Int} {src a rest : Bytes}
    (h : readChunk decode src = .ok (a, rest)) : a.length + rest.length + 8 = src.length := by
  obtain ⟨⟨len, mid⟩, hb, h⟩ := ok_of_bind h
  dsimp only at h
  split at h
  · cases h
  · obtain ⟨h1, h2⟩ := readBytes_ok hb
    obtain ⟨h3, h4⟩ := readBytes_ok h
    rw [h1, h3, List.length_append, List.length_append]
    omega

/-! ## Entries of the journal -/

namespace RaftEntry

/-- The parts of the request, each after its length. -/
def serializeParts (request : RedisRequest) : Bytes :=
  request.flatMap fun part => littleInt part.length ++ part

def serialize (entry : RaftEntry) : Bytes :=
  littleInt entry.term ++ serializeParts entry.request

/-- The loop of `deserialize`: read parts until the end. Each part takes at least
one byte, so the length of the data is enough fuel. -/
def deserializeParts : Nat → Bytes → Except Fault RedisRequest
  | _, [] => .ok []
  | 0, _ :: _ => .error .outOfBounds
  | fuel + 1, c :: data => do
    let (part, rest) ← readChunk ofLittleInt (c :: data)
    let parts ← deserializeParts fuel rest
    return part :: parts

def deserialize (data : Bytes) : Except Fault RaftEntry := do
  let (term, rest) ← readBytes 8 data
  let request ← deserializeParts rest.length rest
  return { term := ofLittleInt term, request }

theorem serializeParts_cons (part : Bytes) (request : RedisRequest) :
    serializeParts (part :: request) =
      littleInt part.length ++ (part ++ serializeParts request) := by
  simp [serializeParts]

/-- Sizes are those of a `std::string`. -/
theorem deserializeParts_serializeParts {request : RedisRequest}
    (h : ∀ part ∈ request, part.length < 2 ^ 63) {fuel : Nat}
    (hf : (serializeParts request).length ≤ fuel) :
    deserializeParts fuel (serializeParts request) = .ok request := by
  induction request generalizing fuel with
  | nil => cases fuel <;> rfl
  | cons part request ih =>
    have hp := h part (by simp)
    rw [serializeParts_cons] at hf ⊢
    have hr : readChunk ofLittleInt (littleInt part.length ++ (part ++ serializeParts request)) =
        .ok (part, serializeParts request) := by
      refine readChunk_append (length_littleInt _) ?_ _
      exact ofLittleInt_littleInt (by omega) (by omega)
    have hl := readChunk_length hr
    cases hd : littleInt part.length ++ (part ++ serializeParts request) with
    | nil => simp [hd] at hl
    | cons c data =>
      cases fuel with
      | zero => simp [hd] at hf
      | succ fuel =>
        rw [hd] at hr hf hl
        have hfuel : (serializeParts request).length ≤ fuel := by
          rw [List.length_cons] at hf hl
          omega
        have hi := ih (fun q hq => h q (by simp [hq])) hfuel
        rw [deserializeParts, bind_of_ok hr]
        exact bind_of_ok hi _

/-- The request of an entry reads back as it was, whatever the term. -/
theorem deserialize_serialize (term : Int) {request : RedisRequest}
    (h : ∀ part ∈ request, part.length < 2 ^ 63) :
    deserialize (serialize { term, request }) =
      .ok { term := ofLittleInt (littleInt term), request } := by
  unfold deserialize serialize
  rw [readBytes_append (length_littleInt term)]
  exact bind_of_ok (deserializeParts_serializeParts h (Nat.le_refl _)) _

end RaftEntry

/-! ## Transactions -/

/-- The requests of a transaction are reads and writes, and it knows if one of
them is a write. -/
structure Transaction where
  requests : List RedisRequest
  hasWrites : Bool
  phantom : Bool
  checked : ∀ r ∈ requests, getCommandType r = .READ ∨ getCommandType r = .WRITE
  hasWrites_eq : hasWrites = requests.any fun r => getCommandType r = .WRITE

namespace Transaction

def empty : Transaction :=
  { requests := [], hasWrites := false, phantom := false
    checked := by simp, hasWrites_eq := rfl }

def containsWrites (tx : Transaction) : Bool := tx.hasWrites

def setPhantom (tx : Transaction) (val : Bool) : Transaction := { tx with phantom := val }

/-- `push_back`, with the check of `checkNthCommandForWrites`, which counts the requests in an
`int`: they are fewer than 2^31. -/
def pushBack (tx : Transaction) (req : RedisRequest) : Except Fault Transaction :=
  if h : getCommandType req = .READ ∨ getCommandType req = .WRITE then
    .ok {
      requests := tx.requests ++ [req]
      hasWrites := tx.hasWrites || getCommandType req = .WRITE
      phantom := tx.phantom
      checked := by
        intro r hr
        rcases List.mem_append.mp hr with hr | hr
        · exact tx.checked r hr
        · rw [List.mem_singleton.mp hr]
          exact h
      hasWrites_eq := by
        rw [List.any_append, tx.hasWrites_eq]
        simp }
  else .error (.assertion "lastreq.getCommandType() is READ or WRITE")

/-- The transaction of a list of requests. -/
def ofRequests (reqs : List RedisRequest) (phantom : Bool)
    (h : ∀ r ∈ reqs, getCommandType r = .READ ∨ getCommandType r = .WRITE) : Transaction :=
  { requests := reqs
    hasWrites := reqs.any fun r => getCommandType r = .WRITE
    phantom
    checked := h
    hasWrites_eq := rfl }

/-! ### Packing -/

/-- `serializeRequestToString`. -/
def serializeRequest (req : RedisRequest) : Bytes :=
  bigInt req.length ++ req.flatMap fun part => bigInt part.length ++ part

def serialize (tx : Transaction) : Bytes :=
  bigInt tx.requests.length ++ tx.requests.flatMap serializeRequest

def getFusedCommand (tx : Transaction) : Bytes :=
  if tx.hasWrites then ascii "TX_READWRITE" else ascii "TX_READONLY"

def typeInString (tx : Transaction) : Bytes :=
  if tx.phantom then ascii "phantom" else ascii "real"

def toRedisRequest (tx : Transaction) : RedisRequest :=
  match tx.phantom, tx.requests with
  | true, [req] => req
  | _, _ => [tx.getFusedCommand, tx.serialize, tx.typeInString]

/-! ### Unpacking -/

/-- The inner loop of `deserialize`: the parts of one request. -/
def readParts : Nat → Bytes → Except Fault (RedisRequest × Bytes)
  | 0, src => .ok ([], src)
  | n + 1, src => do
    let (part, rest) ← readChunk ofBigInt src
    let (parts, rest) ← readParts n rest
    return (part :: parts, rest)

def readRequest (src : Bytes) : Except Fault (RedisRequest × Bytes) := do
  let (totalParts, rest) ← readBytes 8 src
  readParts (ofBigInt totalParts).toNat rest

/-- The outer loop of `deserialize`. -/
def readRequests : Nat → Transaction → Bytes → Except Fault Transaction
  | 0, tx, _ => .ok tx
  | n + 1, tx, src => do
    let (req, rest) ← readRequest src
    let tx ← tx.pushBack req
    readRequests n tx rest

/-- `deserialize` from the payload: `none` stands for the answer false. A negative
count makes `resize` throw. -/
def deserializePayload (src : Bytes) : Except Fault (Option Transaction) :=
  if src = [] then .ok none
  else do
    let (total, rest) ← readBytes 8 src
    if ofBigInt total < 0 then .error (.thrown "vector::_M_default_append")
    else
      let tx ← readRequests (ofBigInt total).toNat empty rest
      return some tx

/-- `deserialize` from a request. -/
def deserialize (req : RedisRequest) : Except Fault (Option Transaction) :=
  match req with
  | [_, payload, kind] =>
    if getCommand req ≠ .TX_READONLY ∧ getCommand req ≠ .TX_READWRITE then .ok none
    else if kind ≠ ascii "phantom" ∧ kind ≠ ascii "real" then .ok none
    else do
      match ← deserializePayload payload with
      | none => return none
      | some tx =>
        if getCommand req = .TX_READONLY then
          qdbAssert (!tx.containsWrites) "!this->containsWrites()"
        else
          qdbAssert tx.containsWrites "this->containsWrites()"
        return some (tx.setPhantom (kind = ascii "phantom"))
  | _ => .ok none

/-! ### What was packed reads back -/

@[ext]
theorem ext {tx tx' : Transaction} (hr : tx.requests = tx'.requests)
    (hp : tx.phantom = tx'.phantom) : tx = tx' := by
  have hw : tx.hasWrites = tx'.hasWrites := by
    rw [tx.hasWrites_eq, tx'.hasWrites_eq, hr]
  cases tx
  cases tx'
  subst hr hp hw
  rfl

theorem pushBack_ok (tx : Transaction) {req : RedisRequest}
    (h : getCommandType req = .READ ∨ getCommandType req = .WRITE) :
    ∃ tx', tx.pushBack req = .ok tx' ∧ tx'.requests = tx.requests ++ [req] ∧
      tx'.phantom = tx.phantom := by
  unfold pushBack
  rw [dif_pos h]
  exact ⟨_, rfl, rfl, rfl⟩

theorem readParts_append {parts : RedisRequest} (h : ∀ part ∈ parts, part.length < 2 ^ 63)
    (rest : Bytes) :
    readParts parts.length ((parts.flatMap fun part => bigInt part.length ++ part) ++ rest) =
      .ok (parts, rest) := by
  induction parts with
  | nil => rfl
  | cons part parts ih =>
    have hp := h part (by simp)
    have hr : ∀ tail, readChunk ofBigInt (bigInt part.length ++ (part ++ tail)) =
        .ok (part, tail) := by
      intro tail
      refine readChunk_append (length_bigInt _) ?_ _
      exact ofBigInt_bigInt (by omega) (by omega)
    have hi := ih fun q hq => h q (by simp [hq])
    rw [List.flatMap_cons, List.append_assoc, List.append_assoc, List.length_cons, readParts,
      bind_of_ok (hr _)]
    exact bind_of_ok hi _

theorem readRequest_append {req : RedisRequest} (hl : req.length < 2 ^ 63)
    (h : ∀ part ∈ req, part.length < 2 ^ 63) (rest : Bytes) :
    readRequest (serializeRequest req ++ rest) = .ok (req, rest) := by
  unfold readRequest serializeRequest
  rw [List.append_assoc, bind_of_ok (readBytes_append (length_bigInt _) _)]
  dsimp only
  rw [ofBigInt_bigInt (by omega) (by omega), Int.toNat_natCast]
  exact readParts_append h rest

/-- The counts and lengths that a request holds fit into 63 bits. -/
def Fits (req : RedisRequest) : Prop :=
  req.length < 2 ^ 63 ∧ ∀ part ∈ req, part.length < 2 ^ 63

theorem readRequests_append {reqs : List RedisRequest} (hf : ∀ req ∈ reqs, Fits req)
    (hc : ∀ req ∈ reqs, getCommandType req = .READ ∨ getCommandType req = .WRITE)
    (tx : Transaction) (rest : Bytes) :
    ∃ tx', readRequests reqs.length tx (reqs.flatMap serializeRequest ++ rest) = .ok tx' ∧
      tx'.requests = tx.requests ++ reqs ∧ tx'.phantom = tx.phantom := by
  induction reqs generalizing tx with
  | nil => exact ⟨tx, rfl, by simp, rfl⟩
  | cons req reqs ih =>
    obtain ⟨h1, h2⟩ := hf req (by simp)
    have hr := readRequest_append h1 h2 (reqs.flatMap serializeRequest ++ rest)
    obtain ⟨tx1, p1, p2, p3⟩ := pushBack_ok tx (hc req (by simp))
    obtain ⟨tx2, q1, q2, q3⟩ := ih (fun q hq => hf q (by simp [hq])) (fun q hq => hc q (by simp [hq]))
      tx1
    refine ⟨tx2, ?_, by rw [q2, p2]; simp, q3.trans p3⟩
    rw [List.flatMap_cons, List.append_assoc, List.length_cons, readRequests, bind_of_ok hr]
    dsimp only
    rw [bind_of_ok p1, q1]

theorem part_le_serializeRequest {req : RedisRequest} {part : Bytes} (h : part ∈ req) :
    part.length + 8 ≤ (serializeRequest req).length := by
  obtain ⟨a, b, rfl⟩ := List.append_of_mem h
  simp only [serializeRequest, List.flatMap_append, List.flatMap_cons, List.length_append,
    length_bigInt]
  omega

theorem length_le_flatMap {α : Type} (f : α → Bytes) (h : ∀ x, 8 ≤ (f x).length) (xs : List α) :
    8 * xs.length ≤ (xs.flatMap f).length := by
  induction xs with
  | nil => simp
  | cons x xs ih =>
    have hx := h x
    simp only [List.flatMap_cons, List.length_append, List.length_cons]
    omega

theorem eight_le_serializeRequest (req : RedisRequest) : 8 ≤ (serializeRequest req).length := by
  simp only [serializeRequest, List.length_append, length_bigInt]
  omega

theorem length_le_serializeRequest (req : RedisRequest) :
    req.length ≤ (serializeRequest req).length := by
  have h := length_le_flatMap (fun part : Bytes => bigInt part.length ++ part)
    (by intro part; simp) req
  simp only [serializeRequest, List.length_append, length_bigInt]
  omega

theorem serializeRequest_le_serialize {tx : Transaction} {req : RedisRequest}
    (h : req ∈ tx.requests) : (serializeRequest req).length ≤ tx.serialize.length := by
  obtain ⟨a, b, hab⟩ := List.append_of_mem h
  simp only [serialize, hab, List.flatMap_append, List.flatMap_cons, List.length_append]
  omega

/-- What fits into one string when packed has counts and lengths that fit. -/
theorem fits_of_serialize {tx : Transaction} (h : tx.serialize.length < 2 ^ 63)
    {req : RedisRequest} (hr : req ∈ tx.requests) : Fits req := by
  have hs := serializeRequest_le_serialize hr
  have hl := length_le_serializeRequest req
  refine ⟨by omega, fun part hp => ?_⟩
  have := part_le_serializeRequest hp
  omega

/-- What follows the packed requests is not looked at. -/
theorem deserializePayload_serialize {tx : Transaction} (h : tx.serialize.length < 2 ^ 63)
    (rest : Bytes) :
    ∃ tx', deserializePayload (tx.serialize ++ rest) = .ok (some tx') ∧
      tx'.requests = tx.requests := by
  have hl : tx.requests.length < 2 ^ 63 := by
    have := length_le_flatMap serializeRequest eight_le_serializeRequest tx.requests
    simp only [serialize, List.length_append, length_bigInt] at h
    omega
  obtain ⟨tx', h1, h2, -⟩ :=
    readRequests_append (fun req hr => fits_of_serialize h hr) tx.checked empty rest
  refine ⟨tx', ?_, by simpa [empty] using h2⟩
  unfold deserializePayload
  have hne : tx.serialize ++ rest ≠ [] := by
    intro he
    have := congrArg List.length he
    simp [serialize] at this
  rw [if_neg hne]
  unfold serialize
  rw [List.append_assoc, bind_of_ok (readBytes_append (length_bigInt _) _)]
  dsimp only
  rw [ofBigInt_bigInt (by omega) (by omega), if_neg (by omega), Int.toNat_natCast, bind_of_ok h1]
  rfl

theorem getCommand_fused (tx : Transaction) (payload kind : Bytes) :
    parseCommand [tx.getFusedCommand, payload, kind] =
      if tx.hasWrites then (.TX_READWRITE, .WRITE) else (.TX_READONLY, .READ) := by
  have h1 : findCommand (ascii "TX_READWRITE") = some (.TX_READWRITE, .WRITE) := by
    decide +kernel
  have h2 : findCommand (ascii "TX_READONLY") = some (.TX_READONLY, .READ) := by
    decide +kernel
  unfold getFusedCommand parseCommand
  cases tx.hasWrites <;> simp [h1, h2]

/-- A packed transaction unpacks to itself. -/
theorem deserialize_packed {tx : Transaction} (h : tx.serialize.length < 2 ^ 63) (rest : Bytes) :
    deserialize [tx.getFusedCommand, tx.serialize ++ rest, tx.typeInString] = .ok (some tx) := by
  obtain ⟨tx', h1, h2⟩ := deserializePayload_serialize h rest
  have hc : getCommand [tx.getFusedCommand, tx.serialize ++ rest, tx.typeInString] =
      if tx.hasWrites then .TX_READWRITE else .TX_READONLY := by
    unfold getCommand
    rw [getCommand_fused]
    cases tx.hasWrites <;> rfl
  have hw : tx'.containsWrites = tx.hasWrites := by
    unfold containsWrites
    rw [tx'.hasWrites_eq, h2, ← tx.hasWrites_eq]
  have hk : tx.typeInString = ascii "phantom" ∨ tx.typeInString = ascii "real" := by
    unfold typeInString
    cases tx.phantom <;> simp
  have hp : decide (tx.typeInString = ascii "phantom") = tx.phantom := by
    unfold typeInString
    cases tx.phantom <;> decide
  unfold deserialize
  have he : tx'.setPhantom tx.phantom = tx := Transaction.ext h2 rfl
  dsimp only
  rw [if_neg (by rw [hc]; cases tx.hasWrites <;> simp),
    if_neg (by rcases hk with hk | hk <;> simp [hk]), bind_of_ok h1]
  dsimp only
  rw [hp, he, hc, hw]
  cases tx.hasWrites <;> rfl

end Transaction

end quarkdb
