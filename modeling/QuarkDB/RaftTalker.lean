-- Entries on their way to a follower: the request that a leader sends, and what the
-- follower reads out of it. Big-endian numbers in the header, host order inside an entry,
-- and the leader as text.
import QuarkDB.RaftDispatcher
import QuarkDB.Transaction

namespace quarkdb

open Endian

/-- A number that an `int64_t` holds. -/
def FitsInt64 (x : Int) : Prop := -2 ^ 63 ≤ x ∧ x < 2 ^ 63

/-! ## One entry -/

namespace RaftEntry

/-- `fetchTerm` of an entry as it is stored. -/
def fetchTerm (data : Bytes) : Except Fault Int := do
  let (term, _) ← readBytes 8 data
  return ofLittleInt term

/-- The term is an `int64_t`, and each part of the request fits into a string. -/
structure Storable (entry : RaftEntry) : Prop where
  term : FitsInt64 entry.term
  parts : ∀ part ∈ entry.request, part.length < 2 ^ 63

theorem deserialize_storable {entry : RaftEntry} (h : entry.Storable) :
    deserialize entry.serialize = .ok entry := by
  have hd := deserialize_serialize entry.term h.parts
  rw [ofLittleInt_littleInt h.term.1 h.term.2] at hd
  exact hd

theorem fetchTerm_storable {entry : RaftEntry} (h : entry.Storable) :
    fetchTerm entry.serialize = .ok entry.term := by
  unfold fetchTerm serialize
  rw [bind_of_ok (readBytes_append (length_littleInt entry.term) _)]
  dsimp only
  rw [ofLittleInt_littleInt h.term.1 h.term.2]
  rfl

end RaftEntry

/-! ## The request -/

namespace RaftTalker

/-- The loop of `appendEntries`: each entry is pushed, and its term looked at. -/
def pushEntries (term : Int) : List Bytes → Except Fault (List Bytes)
  | [] => .ok []
  | entry :: rest => do
    let entryTerm ← RaftEntry.fetchTerm entry
    qdbAssert (entryTerm ≤ term) "RaftEntry::fetchTerm(entries[i]) <= term"
    let rest ← pushEntries term rest
    return entry :: rest

/-- The request that is sent for entries as they are stored. -/
def appendEntries (term : Int) (leader : RaftServer) (prevIndex prevTerm commit : Int)
    (entries : List Bytes) : Except Fault RedisRequest :=
  if term < prevTerm then .error (.thrown "term < prevTerm.. ")
  else do
    let buffer := bigInt term ++ bigInt prevIndex ++ bigInt prevTerm ++ bigInt commit ++
      bigInt entries.length
    let entries ← pushEntries term entries
    return ascii "RAFT_APPEND_ENTRIES" :: leader.toBytes :: buffer :: entries

end RaftTalker

namespace RaftParser

/-- `binaryStringToInt` at the i-th number of the header. -/
def headerInt (header : Bytes) (i : Nat) : Int := ofBigInt ((header.drop (8 * i)).take 8)

/-- The loop of `appendEntries`: so many entries, and the chunks that are left. -/
def deserializeEntries : Nat → List Bytes → Except Fault (List RaftEntry × List Bytes)
  | 0, rest => .ok ([], rest)
  | _ + 1, [] => .error .outOfBounds
  | n + 1, data :: rest => do
    let entry ← RaftEntry.deserialize data
    let (entries, rest) ← deserializeEntries n rest
    return (entry :: entries, rest)

/-- What a follower reads: `none` stands for the answer false. The number of chunks is cast to
an `int`, and a negative count makes `resize` throw. -/
def appendEntries (source : RedisRequest) : Except Fault (Option RaftAppendEntriesRequest) :=
  match source with
  | _ :: server :: header :: chunks =>
    match parseServer server with
    | none => .ok none
    | some leader =>
      let nreqs := headerInt header 4
      if header.length ≠ 40 then .ok none
      else if Int.bmod source.length (2 ^ 32) ≠ signed (3 + nreqs) then .ok none
      else if nreqs < 0 then .error (.thrown "vector::_M_default_append")
      else do
        let (entries, rest) ← deserializeEntries nreqs.toNat chunks
        if rest ≠ [] then return none
        return some {
          term := headerInt header 0
          leader
          prevIndex := headerInt header 1
          prevTerm := headerInt header 2
          commitIndex := headerInt header 3
          entries }
  | _ => .ok none

end RaftParser

/-! ## What was sent is what is received -/

theorem pushEntries_storable {term : Int} {entries : List RaftEntry}
    (h : ∀ e ∈ entries, e.Storable) (hle : ∀ e ∈ entries, e.term ≤ term) :
    RaftTalker.pushEntries term (entries.map RaftEntry.serialize) =
      .ok (entries.map RaftEntry.serialize) := by
  induction entries with
  | nil => rfl
  | cons entry entries ih =>
    have hf := RaftEntry.fetchTerm_storable (h entry List.mem_cons_self)
    have ht : decide (entry.term ≤ term) = true := decide_eq_true (hle entry List.mem_cons_self)
    have hrest := ih (fun e he => h e (List.mem_cons_of_mem _ he))
      fun e he => hle e (List.mem_cons_of_mem _ he)
    rw [List.map_cons, RaftTalker.pushEntries, bind_of_ok hf, ht]
    exact bind_of_ok hrest _

theorem deserializeEntries_storable {entries : List RaftEntry} (h : ∀ e ∈ entries, e.Storable) :
    RaftParser.deserializeEntries entries.length (entries.map RaftEntry.serialize) =
      .ok (entries, []) := by
  induction entries with
  | nil => rfl
  | cons entry entries ih =>
    have hd := RaftEntry.deserialize_storable (h entry List.mem_cons_self)
    have hrest := ih fun e he => h e (List.mem_cons_of_mem _ he)
    rw [List.length_cons, List.map_cons, RaftParser.deserializeEntries, bind_of_ok hd,
      bind_of_ok hrest]
    rfl

/-- The numbers of a header are read where they were written. -/
theorem headerInt_flatMap {numbers : List Int} (h : ∀ x ∈ numbers, FitsInt64 x) {i : Nat} {x : Int}
    (hi : numbers[i]? = some x) : RaftParser.headerInt (numbers.flatMap bigInt) i = x := by
  induction numbers generalizing i with
  | nil => cases hi
  | cons y numbers ih =>
    have hy := h y List.mem_cons_self
    cases i with
    | zero =>
      cases hi
      unfold RaftParser.headerInt
      rw [Nat.mul_zero, List.drop_zero, List.flatMap_cons, List.take_left' (length_bigInt x)]
      exact ofBigInt_bigInt hy.1 hy.2
    | succ i =>
      have hrest := ih (fun z hz => h z (List.mem_cons_of_mem _ hz)) hi
      have hat : 8 * (i + 1) = (bigInt y).length + 8 * i := by
        rw [length_bigInt]
        omega
      unfold RaftParser.headerInt at hrest ⊢
      rw [List.flatMap_cons, hat, List.drop_length_add_append]
      exact hrest

/-- What a leader may send: 64-bit numbers, a leader whose name reads back, terms that are
not newer than its own, and fewer entries than an `int` counts. -/
structure RaftAppendEntriesRequest.Sendable (req : RaftAppendEntriesRequest) : Prop where
  term : FitsInt64 req.term
  leader : parseServer req.leader.toBytes = some req.leader
  prevIndex : FitsInt64 req.prevIndex
  prevTerm : FitsInt64 req.prevTerm
  commitIndex : FitsInt64 req.commitIndex
  few : req.entries.length < 2 ^ 31 - 3
  prevTerm_le : req.prevTerm ≤ req.term
  entries : ∀ e ∈ req.entries, e.Storable
  terms_le : ∀ e ∈ req.entries, e.term ≤ req.term

/-- The request that is built from the stored entries reads as the same request, entry by
entry; a stored entry reads as the same entry, and its term is read off its front. -/
theorem what_is_sent_is_received {req : RaftAppendEntriesRequest} (h : req.Sendable) :
    (∃ payload, RaftTalker.appendEntries req.term req.leader req.prevIndex req.prevTerm
        req.commitIndex (req.entries.map RaftEntry.serialize) = .ok payload ∧
      RaftParser.appendEntries payload = .ok (some req)) ∧
    ∀ entry : RaftEntry, entry.Storable →
      RaftEntry.deserialize entry.serialize = .ok entry ∧
        RaftEntry.fetchTerm entry.serialize = .ok entry.term := by
  refine ⟨?_, fun entry he =>
    ⟨RaftEntry.deserialize_storable he, RaftEntry.fetchTerm_storable he⟩⟩
  have hfew := h.few
  have hcount : FitsInt64 req.entries.length := ⟨by omega, by omega⟩
  -- the header, number by number
  let numbers : List Int :=
    [req.term, req.prevIndex, req.prevTerm, req.commitIndex, req.entries.length]
  have hnumbers : ∀ x ∈ numbers, FitsInt64 x := by
    intro x hx
    simp only [numbers, List.mem_cons, List.not_mem_nil, or_false] at hx
    rcases hx with rfl | rfl | rfl | rfl | rfl
    · exact h.term
    · exact h.prevIndex
    · exact h.prevTerm
    · exact h.commitIndex
    · exact hcount
  have hheader : ∀ i x, numbers[i]? = some x →
      RaftParser.headerInt (numbers.flatMap bigInt) i = x := fun i x => headerInt_flatMap hnumbers
  have hlength : (numbers.flatMap bigInt).length = 40 := by simp [numbers]
  have hsize : Int.bmod (3 + req.entries.length : Nat) (2 ^ 32) =
      signed (3 + req.entries.length) := by
    rw [signed_of_fits (by omega) (by omega), Int.bmod_def]
    split <;> omega
  have hchunks : (ascii "RAFT_APPEND_ENTRIES" :: req.leader.toBytes :: numbers.flatMap bigInt ::
      req.entries.map RaftEntry.serialize).length = 3 + req.entries.length := by
    simp only [List.length_cons, List.length_map]
    omega
  refine ⟨ascii "RAFT_APPEND_ENTRIES" :: req.leader.toBytes :: numbers.flatMap bigInt ::
    req.entries.map RaftEntry.serialize, ?_, ?_⟩
  · unfold RaftTalker.appendEntries
    rw [if_neg (not_lt.mpr h.prevTerm_le)]
    dsimp only
    rw [bind_of_ok (pushEntries_storable h.entries h.terms_le)]
    simp [numbers, pure, Except.pure]
  · unfold RaftParser.appendEntries
    dsimp only
    rw [h.leader]
    dsimp only
    rw [if_neg (not_not.mpr hlength), hheader 4 _ rfl, hheader 0 _ rfl, hheader 1 _ rfl,
      hheader 2 _ rfl, hheader 3 _ rfl]
    rw [if_neg, if_neg (by omega), Int.toNat_natCast,
      bind_of_ok (deserializeEntries_storable h.entries)]
    · rfl
    · rw [not_not, ← hsize, hchunks]

/-- A request with one entry that holds an empty string. -/
theorem an_entry_with_an_empty_string_is_received :
    let req : RaftAppendEntriesRequest := {
      term := 3, leader := ⟨ascii "s1", 7776⟩, prevIndex := 4, prevTerm := 2, commitIndex := -1
      entries := [{ term := 3, request := [ascii "SET", ascii "", [0, 255]] }] }
    ∃ payload, RaftTalker.appendEntries req.term req.leader req.prevIndex req.prevTerm
        req.commitIndex (req.entries.map RaftEntry.serialize) = .ok payload ∧
      RaftParser.appendEntries payload = .ok (some req) := by
  intro req
  have hreq : req.Sendable := by
    refine ⟨?_, by decide +kernel, ?_, ?_, ?_, by decide, by decide, ?_, by decide⟩
    · exact ⟨by decide, by decide⟩
    · exact ⟨by decide, by decide⟩
    · exact ⟨by decide, by decide⟩
    · exact ⟨by decide, by decide⟩
    · intro e he
      rw [List.mem_singleton.mp he]
      exact ⟨⟨by decide, by decide⟩, by decide⟩
  exact (what_is_sent_is_received hreq).1

end quarkdb
