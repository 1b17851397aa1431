-- The reads of single keys, and batches that reach the state machine one after the
-- other: when each request does what an abstract machine says, so do the batches.
import QuarkDB.Dispatcher
import QuarkDB.Operations

namespace quarkdb

open StateMachine StagingArea Outcome

/-! ## Reads -/

namespace StateMachine

/-- `hlen`, `scard`, `dequeLen`, `lhlen` and `vhlen`: the size of a key of some type. -/
def sizeOfType (type : KeyType) (key : Bytes) : StagingM (Status × Int) := do
  let keyinfo ← getKeyDescriptor key
  if !keyinfo.empty ∧ keyinfo.keyType ≠ type then return (wrongType, 0)
  else return (.OK, keyinfo.sz)

def hlen (key : Bytes) : StagingM (Status × Int) := sizeOfType .kHash key

def scard (key : Bytes) : StagingM (Status × Int) := sizeOfType .kSet key

def dequeLen (key : Bytes) : StagingM (Status × Int) := sizeOfType .kDeque key

def lhlen (key : Bytes) : StagingM (Status × Int) := sizeOfType .kLocalityHash key

def vhlen (key : Bytes) : StagingM (Status × Int) := sizeOfType .kVersionedHash key

/-- The order of the keys in the store: byte by byte. -/
def bytesLe (a b : Bytes) : Bool := !List.lex b a

/-- The fields and values of a versioned hash, in order, and its version. -/
def vhgetall (key : Bytes) : StagingM (Status × List (Bytes × Bytes) × UInt64) := do
  let keyinfo ← getKeyDescriptor key
  if keyinfo.empty then return (.OK, [], 0)
  else if keyinfo.keyType ≠ .kVersionedHash then return (wrongType, [], 0)
  else
    let fields := fieldsOf (← MonadState.get).store .kVersionedHash key
    return (.OK, fields.mergeSort fun a b => bytesLe a.1 b.1, keyinfo.startIndex)

end StateMachine

namespace Formatter

def vector (vec : List Bytes) : Bytes :=
  ascii "*" ++ decimal vec.length ++ crlf ++ vec.flatMap string

def versionedVector (num : UInt64) (vec : List Bytes) : Bytes :=
  ascii "*2" ++ crlf ++ ascii ":" ++ decimal num.toNat ++ crlf ++ vector vec

end Formatter

namespace RedisDispatcher

open Formatter

def dispatchHGET (key field : Bytes) : StagingM Bytes := do
  return replyOrNull (← hget key field) string

def dispatchLHGET (key field hint : Bytes) : StagingM Bytes := do
  return replyOrNull (← lhget key field hint) string

/-- A reply that one of the reads gives, without changing anything. -/
def readFrom (s : StagingArea) (command : StagingM Bytes) : Except Fault Bytes := do
  let (reply, _) ← command.run s
  return reply

/-- `dispatchRead`, for the reads of a single key that do not scan; `others` answers the
rest. -/
def dispatchRead (others : StagingArea → RedisRequest → Except Fault Bytes) (s : StagingArea)
    (request : RedisRequest) : Except Fault Bytes :=
  let name := request.headD []
  match getCommand request, request.tail with
  | .HGET, [key, field] => readFrom s (dispatchHGET key field)
  | .HGET, _ => .ok (errArgs name)
  | .HEXISTS, [key, field] => readFrom s do
    let result ← hget key field
    return if result.1.isNotFound then integer 0 else replyWith result fun _ => integer 1
  | .HEXISTS, _ => .ok (errArgs name)
  | .HLEN, [key] => readFrom s do return replyWith (← hlen key) integer
  | .HLEN, _ => .ok (errArgs name)
  | .SCARD, [key] => readFrom s do return replyWith (← scard key) integer
  | .SCARD, _ => .ok (errArgs name)
  | .DEQUE_LEN, [key] => readFrom s do return replyWith (← dequeLen key) integer
  | .DEQUE_LEN, _ => .ok (errArgs name)
  | .LHGET, [key, field] => readFrom s (dispatchLHGET key field [])
  | .LHGET, [key, field, hint] => readFrom s (dispatchLHGET key field hint)
  | .LHGET, _ => .ok (errArgs name)
  | .LHGET_WITH_FALLBACK, [key, field, fallback] => readFrom s do
    let resp ← dispatchLHGET key field []
    if resp ≠ null then return resp else dispatchHGET fallback field
  | .LHGET_WITH_FALLBACK, [key, field, hint, fallback] => readFrom s do
    let resp ← dispatchLHGET key field hint
    if resp ≠ null then return resp else dispatchHGET fallback field
  | .LHGET_WITH_FALLBACK, _ => .ok []
  | .LHLEN, [key] => readFrom s do return replyWith (← lhlen key) integer
  | .LHLEN, _ => .ok (errArgs name)
  | .VHGETALL, [key] => readFrom s do
    let (st, fields, version) ← vhgetall key
    return replyWith (st, ()) fun _ =>
      versionedVector version (fields.flatMap fun e => [e.1, e.2])
  | .VHGETALL, _ => .ok (errArgs name)
  | .VHLEN, [key] => readFrom s do return replyWith (← vhlen key) integer
  | .VHLEN, _ => .ok (errArgs name)
  | _, _ => others s request

/-! ## Batches -/

/-- The index that a batch is committed with: none at all, or its place in the journal. -/
inductive Mode
  | standalone
  | raft

def Mode.index : Mode → Machine → Int
  | .standalone, _ => 0
  | .raft, m => m.lastApplied + 1

/-- What a state machine has applied so far goes with the mode. -/
def Mode.Suits : Mode → Machine → Prop
  | .standalone, m => m.lastApplied = 0
  | .raft, m => 0 ≤ m.lastApplied

theorem commitTransaction_suits {mode : Mode} {m : Machine} (h : mode.Suits m) (s : StagingArea) :
    ∃ m', commitTransaction m s (mode.index m) = .ok m' ∧ mode.Suits m' ∧
      m'.expirationCache = s.expirationCache ∧
      ∀ k ≠ .lastApplied, m'.store.lookup k = s.store.lookup k := by
  cases mode with
  | standalone =>
    have hm : m.lastApplied = 0 := h
    have hc : commitTransaction m s 0 =
        .ok { store := s.store, expirationCache := s.expirationCache, lastApplied := 0 } := by
      unfold commitTransaction
      rw [hm, if_neg (by omega), if_neg (by omega)]
    exact ⟨_, hc, rfl, rfl, fun _ _ => rfl⟩
  | raft =>
    have hm : 0 ≤ m.lastApplied := h
    have hc : commitTransaction m s (m.lastApplied + 1) =
        .ok {
          store := s.store.insert .lastApplied (Endian.bigInt (m.lastApplied + 1))
          expirationCache := s.expirationCache
          lastApplied := m.lastApplied + 1 } := by
      unfold commitTransaction
      rw [if_neg (by omega), if_pos (by omega), if_neg (by omega)]
    refine ⟨_, hc, ?_, rfl, fun k hk => AList.lookup_insert_ne hk⟩
    show 0 ≤ m.lastApplied + 1
    omega

section

variable (doubles : Doubles) (dispatchRead : StagingArea → RedisRequest → Except Fault Bytes)

/-- Batches, one after the other: the replies, and what they lead to. -/
def applyBatches (mode : Mode) : Machine → List Transaction → Except Fault (List Bytes × Machine)
  | m, [] => .ok ([], m)
  | m, tx :: rest => do
    let (reply, m') ← dispatchTransaction doubles dispatchRead m tx (mode.index m)
    let (replies, last) ← applyBatches mode m' rest
    return (reply :: replies, last)

/-- A request that only reads leaves the staging area as it is. -/
theorem dispatchOne_of_read {request : RedisRequest} (ht : getCommandType request ≠ .WRITE)
    (s : StagingArea) :
    dispatchOne doubles dispatchRead request s =
      (dispatchRead s request).map fun reply => (reply, s) := by
  unfold dispatchOne dispatchReadWrite
  rw [if_pos ht]
  show (dispatchRead s request >>= fun reply => .ok (reply, s)) = _
  cases dispatchRead s request <;> rfl

/-- The table gives the type of a command. -/
theorem getCommandType_of_table {request : RedisRequest} {command : RedisCommand}
    {type : CommandType} (hc : getCommand request = command) (hi : command ≠ .INVALID)
    (hall : ∀ row ∈ redisCmdMap, row.2.1 = command → row.2.2 = type) :
    getCommandType request = type := by
  rcases request with _ | ⟨word, parts⟩
  · exact absurd hc.symm hi
  unfold getCommand parseCommand findCommand at hc
  unfold getCommandType parseCommand findCommand
  dsimp only at hc ⊢
  rcases hf : redisCmdMap.find? (fun row => sameCommand row.1 word) with _ | row
  · rw [hf] at hc
    exact absurd hc.symm hi
  · rw [hf] at hc ⊢
    exact hall row (List.mem_of_find?_eq_some hf) hc

/-- A request that writes, and is no transaction, is a command of its own. -/
theorem dispatchOne_of_write {request : RedisRequest} (ht : getCommandType request = .WRITE)
    (hc : getCommand request ≠ .TX_READWRITE) :
    dispatchOne doubles dispatchRead request = dispatchCommand doubles request := by
  unfold dispatchOne dispatchReadWrite
  rw [if_neg (not_not.mpr ht), if_pos hc]

theorem mapM_of_reads {requests : List RedisRequest}
    (ht : ∀ request ∈ requests, getCommandType request ≠ .WRITE) {s s' : StagingArea}
    {replies : List Bytes}
    (h : requests.mapM (dispatchOne doubles dispatchRead) s = .ok (replies, s')) : s' = s := by
  have hy : Yields (requests.mapM (dispatchOne doubles dispatchRead)) s
      (fun _ s' => (∀ r ∈ ([] : List RedisRequest), getCommandType r ≠ .WRITE) ∧ s' = s)
      fun _ => True := by
    refine yields_mapM (I := fun rest s' => (∀ r ∈ rest, getCommandType r ≠ .WRITE) ∧ s' = s)
      (fun request rest s1 h1 => ?_) requests ⟨ht, rfl⟩
    obtain ⟨hr, rfl⟩ := h1
    unfold Yields
    rw [dispatchOne_of_read doubles dispatchRead (hr request List.mem_cons_self)]
    cases dispatchRead s1 request with
    | error e => trivial
    | ok reply => exact ⟨fun r hm => hr r (List.mem_cons_of_mem _ hm), rfl⟩
  exact (hy.of_ok h).2

variable {γ τ : Type}

/-- The replies of an abstract machine to batches. -/
def answerBatches (answer : γ → τ → Bytes × τ) :
    List Transaction → List (List γ) → τ → List Bytes × τ
  | tx :: txs, commands :: batches, t =>
    let first := answers answer commands t
    let later := answerBatches answer txs batches first.2
    (buildResponse tx.phantom first.1 :: later.1, later.2)
  | _, _, t => ([], t)

/-- The requests of a batch spell commands of the abstract machine. -/
def SpellsBatch (spells : RedisRequest → γ → Prop) (tx : Transaction) (commands : List γ) : Prop :=
  tx.requests ≠ [] ∧ List.Forall₂ spells tx.requests commands

section

variable {answer : γ → τ → Bytes × τ} {spells : RedisRequest → γ → Prop}
  {rel : List γ → τ → StagingArea → Prop} {fault : Fault → Prop}
  (hstep : ∀ request c rest t s, spells request c → rel (c :: rest) t s →
    Yields (dispatchOne doubles dispatchRead request) s
      (fun reply s' => reply = (answer c t).1 ∧ rel rest (answer c t).2 s') fault)
  (hcommit : ∀ rest t s s', rel rest t s → s'.expirationCache = s.expirationCache →
    (∀ k ≠ .lastApplied, s'.store.lookup k = s.store.lookup k) →
    s'.batch = ∅ → s'.revisionTracker = ∅ → rel rest t s')

include hstep hcommit

theorem dispatchTransaction_answers {mode : Mode} {m : Machine} (hm : mode.Suits m)
    {tx : Transaction} {commands : List γ} (hs : SpellsBatch spells tx commands) (later : List γ)
    {t : τ} (h : rel (commands ++ later) t (stage m)) :
    (∃ m', dispatchTransaction doubles dispatchRead m tx (mode.index m) =
        .ok (buildResponse tx.phantom (answers answer commands t).1, m') ∧ mode.Suits m' ∧
      rel later (answers answer commands t).2 (stage m')) ∨
    ∃ e, fault e ∧ dispatchTransaction doubles dispatchRead m tx (mode.index m) = .error e := by
  have hy := yields_mapM_answers hstep hs.2 later h
  have hlen : decide (tx.requests.length ≠ 0) = true := by simpa using hs.1
  have hall : dispatchAll doubles dispatchRead tx (stage m) =
      (tx.requests.mapM (dispatchOne doubles dispatchRead) (stage m) >>= fun p =>
        .ok (buildResponse tx.phantom p.1, p.2)) := by
    unfold dispatchAll
    rw [hlen]
    rfl
  unfold dispatchTransaction commitAfter
  rcases hr : tx.requests.mapM (dispatchOne doubles dispatchRead) (stage m) with e | ⟨bs, s'⟩
  · right
    refine ⟨e, hy.of_error hr, ?_⟩
    rw [show (dispatchAll doubles dispatchRead tx).run (stage m) = _ from hall, hr]
    rfl
  left
  obtain ⟨rfl, hrel⟩ := hy.of_ok hr
  rw [hr] at hall
  rw [bind_of_ok (show (dispatchAll doubles dispatchRead tx).run (stage m) = _ from hall)]
  dsimp only
  cases hw : tx.containsWrites with
  | true =>
    obtain ⟨m', hc, hm', hcache, hstore⟩ := commitTransaction_suits hm s'
    rw [if_pos rfl, bind_of_ok hc]
    exact ⟨m', rfl, hm', hcommit _ _ s' _ hrel hcache hstore rfl rfl⟩
  | false =>
    have hreads : ∀ r ∈ tx.requests, getCommandType r ≠ .WRITE := by
      intro r hmem ht
      have hwrites := tx.hasWrites_eq
      rw [show tx.hasWrites = false from hw] at hwrites
      have := List.any_eq_false.mp hwrites.symm r hmem
      exact this (decide_eq_true ht)
    obtain rfl := mapM_of_reads doubles dispatchRead hreads hr
    rw [if_neg nofun]
    exact ⟨m, rfl, hm, hrel⟩

/-- When each request does what an abstract machine does, batches reply what it replies, or
fail as a request may fail. -/
theorem applyBatches_answers {mode : Mode} {m : Machine} (hm : mode.Suits m)
    {txs : List Transaction} {batches : List (List γ)}
    (hs : List.Forall₂ (SpellsBatch spells) txs batches) {t : τ}
    (h : rel batches.flatten t (stage m)) :
    (∃ m', applyBatches doubles dispatchRead mode m txs =
        .ok ((answerBatches answer txs batches t).1, m') ∧
      rel [] (answerBatches answer txs batches t).2 (stage m')) ∨
    ∃ e, fault e ∧ applyBatches doubles dispatchRead mode m txs = .error e := by
  induction hs generalizing m t with
  | nil => exact .inl ⟨m, rfl, h⟩
  | @cons tx commands txs batches hx _ ih =>
    rw [List.flatten_cons] at h
    unfold applyBatches
    rcases dispatchTransaction_answers doubles dispatchRead hstep hcommit hm hx _ h with
      ⟨m1, h1, hm1, hrel⟩ | ⟨e, he, h1⟩
    · rw [bind_of_ok h1]
      dsimp only
      rcases ih hm1 hrel with ⟨m2, h2, hrel2⟩ | ⟨e, he, h2⟩
      · left
        refine ⟨m2, ?_, hrel2⟩
        rw [bind_of_ok h2]
        rfl
      · right
        refine ⟨e, he, ?_⟩
        rw [h2]
        rfl
    · right
      refine ⟨e, he, ?_⟩
      rw [h1]
      rfl

end

/-! ## What every command of a batch keeps -/

/-- A request, or one that is packed into it. -/
inductive Within (request : RedisRequest) : RedisRequest → Prop
  | self : Within request request
  | packed {outer inner : RedisRequest} {tx : Transaction} :
    Transaction.deserialize outer = .ok (some tx) → inner ∈ tx.requests → Within request inner →
    Within request outer

section

variable {I : StagingArea → Prop} (timely : RedisRequest → Prop)
  (hcommand : ∀ request, timely request → getCommandType request = .WRITE →
    getCommand request ≠ .TX_READWRITE → Keeps I (fun _ => True) (dispatchCommand doubles request))

include hcommand

/-- A property that commands keep is kept by a request that holds such commands. -/
theorem keeps_dispatchReadWrite (fuel : Nat) {request : RedisRequest}
    (h : ∀ inner, Within inner request → timely inner) :
    Keeps I (fun _ => True) (dispatchReadWrite doubles dispatchRead fuel request) := by
  have hleaf : getCommandType request = .WRITE → getCommand request ≠ .TX_READWRITE →
      Keeps I (fun _ => True) (dispatchCommand doubles request) :=
    hcommand request (h request .self)
  induction fuel generalizing request with
  | zero =>
    unfold dispatchReadWrite
    split
    · exact keeps_get fun s _ s' hs => yields_lift.mpr ⟨fun _ _ => hs, fun _ _ => trivial⟩
    rename_i ht
    split
    · rename_i hc
      exact hleaf (not_not.mp ht) hc
    · exact keeps_throw trivial
  | succ fuel ih =>
    unfold dispatchReadWrite
    split
    · exact keeps_get fun s _ s' hs => yields_lift.mpr ⟨fun _ _ => hs, fun _ _ => trivial⟩
    rename_i ht
    split
    · rename_i hc
      exact hleaf (not_not.mp ht) hc
    refine keeps_lift (fun _ _ => trivial) fun o ho => ?_
    cases o with
    | none => exact keeps_throw trivial
    | some tx =>
      dsimp only
      refine keeps_lift (fun _ _ => trivial) fun _ _ => ?_
      refine keeps_bind (keeps_mapM fun inner hi => ?_) fun replies => keeps_pure _
      have hw : ∀ r, Within r inner → timely r := fun r hr => h r (.packed ho hi hr)
      exact ih hw (hcommand inner (hw inner .self))

/-- A property that commands and commits keep is kept by a batch. -/
theorem dispatchTransaction_keeps
    (hcommit : ∀ s s', I s → s'.expirationCache = s.expirationCache →
      (∀ k ≠ .lastApplied, s'.store.lookup k = s.store.lookup k) → I s')
    {m m' : Machine} {tx : Transaction} {index : Int} {reply : Bytes} (hm : I (stage m))
    (h : ∀ request ∈ tx.requests, ∀ inner, Within inner request → timely inner)
    (hd : dispatchTransaction doubles dispatchRead m tx index = .ok (reply, m')) :
    I (stage m') := by
  have hall : Keeps I (fun _ => True) (dispatchAll doubles dispatchRead tx) := by
    unfold dispatchAll
    refine keeps_lift (fun _ _ => trivial) fun _ _ => ?_
    refine keeps_bind (keeps_mapM fun request hr => ?_) fun replies => keeps_pure _
    exact keeps_dispatchReadWrite doubles dispatchRead timely hcommand _ (h request hr)
  unfold dispatchTransaction commitAfter at hd
  obtain ⟨⟨resp, s⟩, hrun, hd⟩ := ok_of_bind hd
  have hs : I s := (hall (stage m) hm).of_ok hrun
  dsimp only at hd
  split at hd
  · obtain ⟨m1, hc, hd⟩ := ok_of_bind hd
    cases hd
    unfold commitTransaction at hc
    split at hc
    · cases hc
    split at hc
    · split at hc
      · cases hc
      · cases hc
        exact hcommit s _ hs rfl fun k hk => AList.lookup_insert_ne hk
    · cases hc
      exact hcommit s _ hs rfl fun _ _ => rfl
  · cases hd
    exact hm

end

end

end RedisDispatcher

end quarkdb
