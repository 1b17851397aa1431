-- The requests of a connection on their way to the dispatcher: MULTI blocks, and
-- writes that are fused into phantom transactions while more requests wait. The
-- dispatcher is given what the client sent, in order, however the link cuts it.
import QuarkDB.Batches
import QuarkDB.Dispatcher
import QuarkDB.Transaction

namespace quarkdb

/-! ## The filter -/

namespace InternalFilter

/-- The command of a request after `process`: those of the node itself are invalid from
a client. -/
def command (req : RedisRequest) : RedisCommand :=
  match getCommand req with
  | .TIMESTAMPED_LEASE_RELEASE | .TIMESTAMPED_LEASE_ACQUIRE | .TIMESTAMPED_LEASE_GET => .INVALID
  | cmd => cmd

def commandType (req : RedisRequest) : CommandType :=
  match getCommand req with
  | .TIMESTAMPED_LEASE_RELEASE | .TIMESTAMPED_LEASE_ACQUIRE | .TIMESTAMPED_LEASE_GET => .INVALID
  | _ => getCommandType req

theorem getCommandType_of_commandType {req : RedisRequest} {t : CommandType}
    (h : commandType req = t) (ht : t ≠ .INVALID) : getCommandType req = t := by
  unfold commandType at h
  split at h
  · exact absurd h.symm ht
  · exact absurd h.symm ht
  · exact absurd h.symm ht
  · exact h

/-- The commands that open and close a block are no writes. -/
theorem command_of_write {req : RedisRequest} (h : commandType req = .WRITE) :
    command req ≠ .MULTI ∧ command req ≠ .EXEC ∧ command req ≠ .DISCARD := by
  have htype := getCommandType_of_commandType h (by decide)
  have hcmd : command req = getCommand req := by
    unfold command
    unfold commandType at h
    split at h
    · cases h
    · cases h
    · cases h
    · rfl
  have hcontrol : ∀ cmd : RedisCommand, cmd ≠ .INVALID →
      (∀ row ∈ redisCmdMap, row.2.1 = cmd → row.2.2 = .CONTROL) → command req ≠ cmd := by
    intro cmd hi hall he
    rw [hcmd] at he
    rw [RedisDispatcher.getCommandType_of_table he hi hall] at htype
    cases htype
  exact ⟨hcontrol .MULTI (by decide) (by decide +kernel),
    hcontrol .EXEC (by decide) (by decide +kernel), hcontrol .DISCARD (by decide) (by decide +kernel)⟩

end InternalFilter

/-- `expectedResponses`: a client does not know of a phantom transaction. -/
def Transaction.expectedResponses (tx : Transaction) : Nat :=
  if tx.phantom then tx.requests.length else 1

/-! ## The handler of MULTI blocks -/

/-- What a connection does: reply at once, or pass something to the dispatcher. -/
inductive Action
  | reply (resp : Bytes)
  | dispatch (req : RedisRequest)
  | dispatchTransaction (tx : Transaction)

structure MultiHandler where
  transaction : Transaction := .empty
  activated : Bool := false

namespace MultiHandler

open InternalFilter (command commandType)

def isPhantom (m : MultiHandler) : Bool := m.activated && m.transaction.phantom

def size (m : MultiHandler) : Nat := m.transaction.requests.length

def activatePhantom (m : MultiHandler) : Except Fault MultiHandler :=
  if m.activated then
    if m.transaction.phantom then .ok m else .error (.assertion "transaction.isPhantom()")
  else .ok { transaction := m.transaction.setPhantom true, activated := true }

def process (m : MultiHandler) (req : RedisRequest) : Except Fault (MultiHandler × List Action) :=
  if !m.activated && command req ≠ .MULTI then
    .error (.assertion "activated || req.getCommand() == RedisCommand::MULTI")
  else if command req = .DISCARD then
    .ok ({ transaction := .empty, activated := false }, [.reply Formatter.ok])
  else if command req = .MULTI then
    if req.length ≠ 1 then .ok (m, [.reply (Formatter.errArgs (req.headD []))])
    else if m.activated then
      .ok (m, [.reply (Formatter.err (ascii "MULTI calls can not be nested"))])
    else
      .ok ({ transaction := m.transaction.setPhantom false, activated := true },
        [.reply Formatter.ok])
  else if command req = .EXEC then
    -- Empty multi-exec block?
    if m.transaction.requests = [] then
      if m.transaction.phantom then .error (.assertion "!transaction.isPhantom()")
      else .ok ({ m with activated := false }, [.reply (Formatter.vector [])])
    else
      .ok ({ transaction := .empty, activated := false }, [.dispatchTransaction m.transaction])
  else if commandType req ≠ .READ ∧ commandType req ≠ .WRITE then
    .ok (m, [.reply (Formatter.err
      (ascii "Only reads and writes allowed within MULTI/EXEC blocks."))])
  else
    (m.transaction.pushBack req).map fun tx =>
      ({ m with transaction := tx },
        if tx.phantom then [] else [.reply (Formatter.status (ascii "QUEUED"))])

def finalizePhantomTransaction (m : MultiHandler) : Except Fault (MultiHandler × List Action) :=
  if !m.activated || !m.transaction.phantom then .ok (m, [])
  else if m.transaction.requests = [] then .ok (m, [])
  else m.process [ascii "EXEC"]

end MultiHandler

/-! ## The loop of a connection -/

namespace Connection

open InternalFilter (command commandType)

/-- One step, and then another: what they do, in order. -/
def andThen (first : Except Fault (MultiHandler × List Action))
    (next : MultiHandler → Except Fault (MultiHandler × List Action)) :
    Except Fault (MultiHandler × List Action) := do
  let (m, out) ← first
  let (m, out') ← next m
  return (m, out ++ out')

/-- The end of the loop, where no block and no batch is open. -/
def processAlone (m : MultiHandler) (req : RedisRequest) :
    Except Fault (MultiHandler × List Action) :=
  if command req = .DISCARD then
    andThen m.finalizePhantomTransaction fun m =>
      .ok (m, [.reply (Formatter.err (ascii "DISCARD without MULTI"))])
  else if commandType req = .WRITE then do
    let m ← m.activatePhantom
    m.process req
  else andThen m.finalizePhantomTransaction fun m => .ok (m, [.dispatch req])

/-- The middle of the loop: the request goes into the block or the batch that is open, or the
batch is finalized before it. -/
def processActive (m : MultiHandler) (req : RedisRequest) :
    Except Fault (MultiHandler × List Action) :=
  if m.activated then
    if m.isPhantom ∧ commandType req ≠ .WRITE then
      andThen m.finalizePhantomTransaction fun m => processAlone m req
    else m.process req
  else processAlone m req

/-- One request in `processRequests`; a batch takes no more than `phantomBatchLimit`. -/
def processRequest (phantomBatchLimit : Nat) (m : MultiHandler) (req : RedisRequest) :
    Except Fault (MultiHandler × List Action) :=
  if command req = .MULTI then
    -- Beginning of a MULTI block: Finalize phantom transactions.
    andThen m.finalizePhantomTransaction fun m => m.process req
  else if command req = .EXEC ∧ !m.activated then
    .ok (m, [.reply (Formatter.err (ascii "EXEC without MULTI"))])
  else if command req = .TX_READWRITE then
    andThen m.finalizePhantomTransaction fun m => .ok (m, [.dispatch req])
  else if phantomBatchLimit ≤ m.size then
    andThen m.finalizePhantomTransaction fun m => processActive m req
  else processActive m req

/-- What a connection meets: a request, or the end of a call of `processRequests`, since
the link is slow or no more requests are accepted. -/
inductive Incoming
  | request (req : RedisRequest)
  | endOfCall

def step (phantomBatchLimit : Nat) (m : MultiHandler) :
    Incoming → Except Fault (MultiHandler × List Action)
  | .request req => processRequest phantomBatchLimit m req
  | .endOfCall => m.finalizePhantomTransaction

def runAll (phantomBatchLimit : Nat) (m : MultiHandler) :
    List Incoming → Except Fault (MultiHandler × List Action)
  | [] => .ok (m, [])
  | x :: xs => andThen (step phantomBatchLimit m x) fun m => runAll phantomBatchLimit m xs

/-- The requests among what came in. -/
def requests (incoming : List Incoming) : List RedisRequest :=
  incoming.filterMap fun
    | .request req => some req
    | .endOfCall => none

end Connection

/-! ## Requests one by one -/

/-- What a client means by its requests: each is answered, or run, or all requests of a
block are run. -/
inductive Effect
  | answer (resp : Bytes)
  | run (req : RedisRequest)
  | block (reqs : List RedisRequest)

namespace Effect

open InternalFilter (command commandType)
open Connection (Incoming)

/-- The effect of one request, and the block that is open after it. -/
def serve (queued : Option (List RedisRequest)) (req : RedisRequest) :
    Option (List RedisRequest) × Effect :=
  match queued with
  | none =>
    if command req = .MULTI then
      if req.length ≠ 1 then (none, .answer (Formatter.errArgs (req.headD [])))
      else (some [], .answer Formatter.ok)
    else if command req = .EXEC then
      (none, .answer (Formatter.err (ascii "EXEC without MULTI")))
    else if command req = .DISCARD then
      (none, .answer (Formatter.err (ascii "DISCARD without MULTI")))
    else (none, .run req)
  | some reqs =>
    if command req = .MULTI then
      if req.length ≠ 1 then (some reqs, .answer (Formatter.errArgs (req.headD [])))
      else (some reqs, .answer (Formatter.err (ascii "MULTI calls can not be nested")))
    else if command req = .TX_READWRITE then (some reqs, .run req)
    else if command req = .DISCARD then (none, .answer Formatter.ok)
    else if command req = .EXEC then
      (none, if reqs = [] then .answer (Formatter.vector []) else .block reqs)
    else if commandType req ≠ .READ ∧ commandType req ≠ .WRITE then
      (some reqs, .answer (Formatter.err
        (ascii "Only reads and writes allowed within MULTI/EXEC blocks.")))
    else (some (reqs ++ [req]), .answer (Formatter.status (ascii "QUEUED")))

def serveAll (queued : Option (List RedisRequest)) : List RedisRequest → List Effect
  | [] => []
  | req :: rest => (serve queued req).2 :: serveAll (serve queued req).1 rest

/-- The effect of one request when writes may be fused: right after a fused write, an EXEC has no
block but is not answered at once. It is passed on, to a dispatcher that expects none. -/
def serveFused (fused : Bool) (queued : Option (List RedisRequest)) (req : RedisRequest) : Effect :=
  if fused && command req = .EXEC then .run req else (serve queued req).2

/-- A write outside of a block is fused with those that follow in the same call, unless it is a
packed transaction. -/
def fuses (queued : Option (List RedisRequest)) (req : RedisRequest) : Bool :=
  queued.isNone && commandType req = .WRITE && command req ≠ .TX_READWRITE

def serveCalls (queued : Option (List RedisRequest)) (fused : Bool) : List Incoming → List Effect
  | [] => []
  | .endOfCall :: rest => serveCalls queued false rest
  | .request req :: rest =>
    serveFused fused queued req :: serveCalls (serve queued req).1 (fuses queued req) rest

/-- An EXEC comes right after a fused write. -/
def Strays (queued : Option (List RedisRequest)) (fused : Bool) : List Incoming → Prop
  | [] => False
  | .endOfCall :: rest => Strays queued false rest
  | .request req :: rest =>
    fused = true ∧ command req = .EXEC ∨ Strays (serve queued req).1 (fuses queued req) rest

theorem serve_exec_ne_run (queued : Option (List RedisRequest)) {req : RedisRequest}
    (h : command req = .EXEC) : (serve queued req).2 ≠ .run req := by
  unfold serve
  cases queued with
  | none => simp [h]
  | some reqs =>
    simp only [h, reduceCtorEq, if_false, if_true]
    split <;> simp

/-- Each request has one effect. -/
theorem length_serveCalls (queued : Option (List RedisRequest)) (fused : Bool)
    (incoming : List Incoming) :
    (serveCalls queued fused incoming).length = (Connection.requests incoming).length := by
  induction incoming generalizing queued fused with
  | nil => rfl
  | cons x rest ih =>
    cases x with
    | endOfCall => exact ih queued false
    | request req => exact congrArg Nat.succ (ih (serve queued req).1 (fuses queued req))

/-- Fused or one by one, the effects are the same exactly if no EXEC strays. -/
theorem serveCalls_eq_iff (queued : Option (List RedisRequest)) (fused : Bool)
    (incoming : List Incoming) :
    serveCalls queued fused incoming = serveAll queued (Connection.requests incoming) ↔
      ¬ Strays queued fused incoming := by
  induction incoming generalizing queued fused with
  | nil => simp [serveCalls, serveAll, Connection.requests, Strays]
  | cons x rest ih =>
    cases x with
    | endOfCall => exact ih queued false
    | request req =>
      have htail := ih (serve queued req).1 (fuses queued req)
      have hreq : Connection.requests (.request req :: rest) =
          req :: Connection.requests rest := rfl
      rw [serveCalls, hreq, serveAll, List.cons.injEq, htail, Strays, not_or]
      apply and_congr_left'
      unfold serveFused
      by_cases hs : fused = true ∧ command req = .EXEC
      · rw [if_pos (by simp [hs.1, hs.2])]
        exact ⟨fun heq => absurd heq.symm (serve_exec_ne_run queued hs.2), fun h => absurd hs h⟩
      · rw [if_neg (by simpa using hs)]
        exact ⟨fun _ => hs, fun _ => rfl⟩

end Effect

namespace Action

/-- What the client sees of an action: the writes of a phantom transaction, each for itself. -/
def effects : Action → List Effect
  | .reply resp => [.answer resp]
  | .dispatch req => [.run req]
  | .dispatchTransaction tx => if tx.phantom then tx.requests.map .run else [.block tx.requests]

/-- How many replies the client gets. -/
def expectedResponses : Action → Nat
  | .reply _ => 1
  | .dispatch _ => 1
  | .dispatchTransaction tx => tx.expectedResponses

theorem length_effects (a : Action) : a.effects.length = a.expectedResponses := by
  cases a with
  | reply => rfl
  | dispatch => rfl
  | dispatchTransaction tx =>
    simp only [effects, expectedResponses, Transaction.expectedResponses]
    split
    · exact List.length_map _
    · rfl

/-- A transaction that is dispatched is not empty; a phantom one has writes only, and not too
many. -/
def Fits (phantomBatchLimit : Nat) : Action → Prop
  | .dispatchTransaction tx => tx.requests ≠ [] ∧
    (tx.phantom = true → tx.requests.length ≤ max 1 phantomBatchLimit ∧
      ∀ req ∈ tx.requests, getCommandType req = .WRITE)
  | _ => True

end Action

/-! ## The invariant -/

/-- Where the handler stands beside the requests served one by one: the block that is open,
and the effects of a batch that are still to come. -/
inductive Stands (phantomBatchLimit : Nat) :
    MultiHandler → Option (List RedisRequest) → List Effect → Prop
  | idle {m : MultiHandler} (ha : m.activated = false) (hr : m.transaction.requests = []) :
      Stands phantomBatchLimit m none []
  | batch {m : MultiHandler} (ha : m.activated = true) (hp : m.transaction.phantom = true)
      (hr : m.transaction.requests ≠ []) (hl : m.size ≤ max 1 phantomBatchLimit)
      (hw : ∀ req ∈ m.transaction.requests, getCommandType req = .WRITE) :
      Stands phantomBatchLimit m none (m.transaction.requests.map .run)
  | block {m : MultiHandler} (ha : m.activated = true) (hp : m.transaction.phantom = false) :
      Stands phantomBatchLimit m (some m.transaction.requests) []

namespace MultiHandler

open InternalFilter (command commandType)

variable {limit : Nat} {m : MultiHandler} {queued : Option (List RedisRequest)}
  {pending : List Effect}

/-- After a batch is finalized nothing is pending: its requests were given away, each once. -/
theorem finalize_spec (h : Stands limit m queued pending) :
    ∃ m' out, m.finalizePhantomTransaction = .ok (m', out) ∧ Stands limit m' queued [] ∧
      out.flatMap Action.effects = pending ∧ (∀ a ∈ out, a.Fits limit) ∧
      m'.size ≤ m.size ∧ (m'.activated = true → m'.transaction.phantom = false) ∧
      (queued = none → m'.activated = false ∧ m'.transaction.requests = []) := by
  unfold finalizePhantomTransaction
  cases h with
  | idle ha hr =>
    exact ⟨m, [], by simp [ha], .idle ha hr, rfl, by simp, le_refl _, by simp [ha],
      fun _ => ⟨ha, hr⟩⟩
  | block ha hp =>
    exact ⟨m, [], by simp [hp], .block ha hp, rfl, by simp, le_refl _, fun _ => hp, by simp⟩
  | batch ha hp hr hl hw =>
    have hexec : command [ascii "EXEC"] = .EXEC := by decide +kernel
    refine ⟨{ transaction := .empty, activated := false },
      [.dispatchTransaction m.transaction], ?_, .idle rfl rfl, ?_, ?_, Nat.zero_le _, by simp,
      fun _ => ⟨rfl, rfl⟩⟩
    · simp [ha, hp, hr, process, hexec]
    · simp [Action.effects, hp]
    · intro a hmem
      rw [List.mem_singleton.mp hmem]
      exact ⟨hr, fun _ => ⟨hl, hw⟩⟩

/-- Inside a block, a request has the effect it has one by one. -/
theorem process_block (limit : Nat) (ha : m.activated = true) (hp : m.transaction.phantom = false)
    {req : RedisRequest} (htx : command req ≠ .TX_READWRITE) :
    ∃ m' a, m.process req = .ok (m', [a]) ∧ a.Fits limit ∧
      Stands limit m' (Effect.serve (some m.transaction.requests) req).1 [] ∧
      a.effects = [(Effect.serve (some m.transaction.requests) req).2] ∧ m'.isPhantom = false := by
  have hnot : m.isPhantom = false := by simp [isPhantom, hp]
  unfold process Effect.serve
  simp only [ha, Bool.not_true, Bool.false_and, Bool.false_eq_true, if_false, htx]
  by_cases hd : command req = .DISCARD
  · have hm : command req ≠ .MULTI := by rw [hd]; decide
    simp only [hd, if_true, reduceCtorEq, if_false]
    exact ⟨_, _, rfl, trivial, .idle rfl rfl, rfl, rfl⟩
  simp only [hd, if_false]
  by_cases hm : command req = .MULTI
  · simp only [hm, if_true]
    by_cases hlen : req.length ≠ 1
    · simp only [if_pos hlen]
      exact ⟨_, _, rfl, trivial, .block ha hp, rfl, hnot⟩
    · simp only [if_neg hlen]
      exact ⟨_, _, rfl, trivial, .block ha hp, rfl, hnot⟩
  simp only [hm, if_false]
  by_cases he : command req = .EXEC
  · simp only [he, if_true]
    by_cases hr : m.transaction.requests = []
    · simp only [if_pos hr, hp, Bool.false_eq_true, if_false]
      exact ⟨_, _, rfl, trivial, .idle rfl hr, rfl, rfl⟩
    · simp only [if_neg hr]
      exact ⟨_, _, rfl, ⟨hr, by simp [hp]⟩, .idle rfl rfl, by simp [Action.effects, hp], rfl⟩
  simp only [he, if_false]
  by_cases ht : commandType req ≠ .READ ∧ commandType req ≠ .WRITE
  · simp only [if_pos ht]
    exact ⟨_, _, rfl, trivial, .block ha hp, rfl, hnot⟩
  · have hrw : getCommandType req = .READ ∨ getCommandType req = .WRITE := by
      by_cases hread : commandType req = .READ
      · exact .inl (InternalFilter.getCommandType_of_commandType hread (by decide))
      · have hwrite : commandType req = .WRITE := by
          by_contra hw
          exact ht ⟨hread, hw⟩
        exact .inr (InternalFilter.getCommandType_of_commandType hwrite (by decide))
    simp only [if_neg ht, Transaction.pushBack, dif_pos hrw, Except.map, hp, Bool.false_eq_true,
      if_false]
    exact ⟨_, _, rfl, trivial, .block rfl rfl, rfl, rfl⟩

/-- A write that joins a batch, or starts one, is pending. -/
theorem process_write (limit : Nat) (ha : m.activated = true) (hp : m.transaction.phantom = true)
    (hl : m.size + 1 ≤ max 1 limit)
    (hw : ∀ req ∈ m.transaction.requests, getCommandType req = .WRITE)
    {req : RedisRequest} (ht : commandType req = .WRITE) :
    ∃ m', m.process req = .ok (m', []) ∧
      Stands limit m' none (m.transaction.requests.map .run ++ [.run req]) ∧
      m'.isPhantom = true := by
  have htype := InternalFilter.getCommandType_of_commandType ht (by decide)
  have hwrite : getCommandType req = .READ ∨ getCommandType req = .WRITE := .inr htype
  have hnot : ¬ (commandType req ≠ .READ ∧ commandType req ≠ .WRITE) := fun hn => hn.2 ht
  obtain ⟨hm, he, hd⟩ := InternalFilter.command_of_write ht
  unfold process
  simp only [ha, Bool.not_true, Bool.false_and, Bool.false_eq_true, if_false, hd, hm, he,
    if_neg hnot, Transaction.pushBack, dif_pos hwrite, Except.map, hp, if_true]
  refine ⟨_, rfl, ?_, rfl⟩
  have hmap : m.transaction.requests.map Effect.run ++ [.run req] =
      (m.transaction.requests ++ [req]).map .run := by simp
  rw [hmap]
  refine .batch rfl rfl (by simp) ?_ fun r hr => ?_
  · simpa [size] using hl
  · rcases List.mem_append.mp hr with hr | hr
    · exact hw r hr
    · rw [List.mem_singleton.mp hr]
      exact htype

end MultiHandler

/-! ## One request -/

namespace Connection

open InternalFilter (command commandType)
open Effect (serve fuses)

variable {limit : Nat} {m : MultiHandler} {queued : Option (List RedisRequest)}
  {pending : List Effect} {req : RedisRequest}

theorem andThen_ok {first : Except Fault (MultiHandler × List Action)}
    {next : MultiHandler → Except Fault (MultiHandler × List Action)} {m m' : MultiHandler}
    {out out' : List Action} (h : first = .ok (m, out)) (h' : next m = .ok (m', out')) :
    andThen first next = .ok (m', out ++ out') := by
  subst h
  show (next m >>= _) = _
  rw [h']
  rfl

/-- What a step gives: the effects that were expected of it, and a batch if the last of them was a
write that is fused. -/
def Gives (limit : Nat) (r : Except Fault (MultiHandler × List Action))
    (queued : Option (List RedisRequest)) (fused : Bool) (expected : List Effect) : Prop :=
  ∃ m out pending, r = .ok (m, out) ∧ Stands limit m queued pending ∧ m.isPhantom = fused ∧
    out.flatMap Action.effects ++ pending = expected ∧ ∀ a ∈ out, a.Fits limit

/-- The effect of a request that has passed the check for an EXEC without a block. -/
def passedOn (queued : Option (List RedisRequest)) (req : RedisRequest) : Effect :=
  Effect.serveFused queued.isNone queued req

/-- What was pending is given away first. -/
theorem gives_andThen {next : MultiHandler → Except Fault (MultiHandler × List Action)}
    {queued' : Option (List RedisRequest)} {fused : Bool} {expected : List Effect}
    {m' : MultiHandler} {out : List Action} (hf : m.finalizePhantomTransaction = .ok (m', out))
    (he : out.flatMap Action.effects = pending) (hfits : ∀ a ∈ out, a.Fits limit)
    (h : Gives limit (next m') queued' fused expected) :
    Gives limit (andThen m.finalizePhantomTransaction next) queued' fused
      (pending ++ expected) := by
  obtain ⟨m2, out2, pending2, h1, h2, h3, h4, h5⟩ := h
  refine ⟨m2, out ++ out2, pending2, andThen_ok hf h1, h2, h3, ?_, fun a ha => ?_⟩
  · rw [List.flatMap_append, he, List.append_assoc, h4]
  · rcases List.mem_append.mp ha with ha | ha
    · exact hfits a ha
    · exact h5 a ha

theorem isPhantom_eq_false (h : m.activated = true → m.transaction.phantom = false) :
    m.isPhantom = false := by
  unfold MultiHandler.isPhantom
  cases ha : m.activated with
  | false => rfl
  | true => rw [h ha, Bool.and_false]

theorem fuses_eq_false (hw : commandType req ≠ .WRITE) : fuses queued req = false := by
  simp [fuses, hw]

/-- Outside of a block, a request is answered, or dispatched, or starts a batch. -/
theorem gives_processAlone (ha : m.activated = false) (hr : m.transaction.requests = [])
    (hm : command req ≠ .MULTI) (htx : command req ≠ .TX_READWRITE) :
    Gives limit (processAlone m req) (serve none req).1 (fuses none req) [passedOn none req] := by
  have hidle : Stands limit m none [] := .idle ha hr
  obtain ⟨m1, out, h1, h2, h3, h4, -, hnp, -⟩ := MultiHandler.finalize_spec hidle
  have hm1 := isPhantom_eq_false hnp
  have heffect : passedOn none req =
      if command req = .EXEC then .run req else (serve none req).2 := by
    simp [passedOn, Effect.serveFused]
  rw [heffect]
  unfold processAlone serve
  simp only [hm, if_false]
  by_cases hd : command req = .DISCARD
  · have hw : commandType req ≠ .WRITE := fun hw => (InternalFilter.command_of_write hw).2.2 hd
    simp only [hd, if_true, reduceCtorEq, if_false]
    rw [fuses_eq_false hw]
    exact gives_andThen h1 h3 h4 ⟨m1, _, [], rfl, h2, hm1, rfl, by simp [Action.Fits]⟩
  simp only [hd, if_false]
  by_cases hw : commandType req = .WRITE
  · obtain ⟨-, he, -⟩ := InternalFilter.command_of_write hw
    simp only [hw, if_true, he, if_false]
    have hact : m.activatePhantom =
        .ok { transaction := m.transaction.setPhantom true, activated := true } := by
      simp [MultiHandler.activatePhantom, ha]
    have hsize : m.size = 0 := by simp [MultiHandler.size, hr]
    obtain ⟨m2, h5, h6, h7⟩ := MultiHandler.process_write limit
      (m := { transaction := m.transaction.setPhantom true, activated := true }) rfl rfl
      (by show m.size + 1 ≤ _; omega) (fun r hmem => by
        have hmem : r ∈ m.transaction.requests := hmem
        rw [hr] at hmem
        cases hmem) hw
    rw [hact]
    refine ⟨m2, [], _, h5, h6, ?_, ?_, by simp⟩
    · simp [h7, fuses, hw, htx]
    · show m.transaction.requests.map Effect.run ++ [.run req] = [.run req]
      rw [hr]
      rfl
  · simp only [hw, if_false]
    rw [fuses_eq_false hw]
    refine gives_andThen h1 h3 h4 ⟨m1, _, [], rfl, ?_, hm1, ?_, by simp [Action.Fits]⟩
    · split <;> exact h2
    · split <;> rfl

theorem gives_processActive (h : Stands limit m queued pending) (hm : command req ≠ .MULTI)
    (htx : command req ≠ .TX_READWRITE)
    (hroom : m.isPhantom = true → m.size + 1 ≤ max 1 limit) :
    Gives limit (processActive m req) (serve queued req).1 (fuses queued req)
      (pending ++ [passedOn queued req]) := by
  have hspec := MultiHandler.finalize_spec h
  unfold processActive
  cases h with
  | idle ha hr =>
    rw [ha]
    exact gives_processAlone ha hr hm htx
  | block ha hp =>
    rw [ha, if_pos rfl, if_neg (by simp [MultiHandler.isPhantom, hp])]
    obtain ⟨m', a, h1, h2, h3, h4, h5⟩ := MultiHandler.process_block limit ha hp htx
    refine ⟨m', [a], [], h1, h3, h5, ?_, by simpa using h2⟩
    simp only [List.flatMap_cons, List.flatMap_nil, List.append_nil, h4]
    rfl
  | batch ha hp hr hl hw =>
    rw [ha, if_pos rfl]
    by_cases ht : commandType req = .WRITE
    · rw [if_neg fun hn => hn.2 ht]
      obtain ⟨m', h1, h2, h3⟩ := MultiHandler.process_write limit ha hp
        (hroom (by simp [MultiHandler.isPhantom, ha, hp])) hw ht
      obtain ⟨-, he, hd⟩ := InternalFilter.command_of_write ht
      have hserve : serve none req = (none, .run req) := by simp [serve, hm, he, hd]
      rw [passedOn, Effect.serveFused, hserve]
      simp only [he, decide_false, Bool.and_false, Bool.false_eq_true, if_false]
      exact ⟨m', [], _, h1, h2, by simp [h3, fuses, ht, htx], rfl, by simp⟩
    · rw [if_pos ⟨by simp [MultiHandler.isPhantom, ha, hp], ht⟩]
      obtain ⟨m1, out, h1, h2, h3, h4, -, -, h5⟩ := hspec
      obtain ⟨hidle, hnone⟩ := h5 rfl
      exact gives_andThen h1 h3 h4 (gives_processAlone hidle hnone hm htx)

/-- An EXEC without a block is answered with an error. -/
theorem gives_stray_exec (h : Stands limit m queued pending) (he : command req = .EXEC)
    (ha : m.activated = false) :
    Gives limit (.ok (m, [.reply (Formatter.err (ascii "EXEC without MULTI"))]))
      (serve queued req).1 false (pending ++ [Effect.serveFused m.isPhantom queued req]) := by
  have hserve : serve none req = (none, .answer (Formatter.err (ascii "EXEC without MULTI"))) := by
    simp [serve, he]
  have hp : m.isPhantom = false := by simp [MultiHandler.isPhantom, ha]
  cases h with
  | idle _ hr =>
    rw [Effect.serveFused, hp, hserve]
    exact ⟨m, _, [], rfl, .idle ha hr, hp, rfl, by simp [Action.Fits]⟩
  | batch hact =>
    rw [hact] at ha
    cases ha
  | block hact =>
    rw [hact] at ha
    cases ha

/-- A MULTI, once no batch is open any more, begins a block, or is refused. -/
theorem gives_multi (h : Stands limit m queued []) (hm : command req = .MULTI)
    (hp : m.isPhantom = false)
    (hempty : queued = none → m.activated = false ∧ m.transaction.requests = []) :
    Gives limit (m.process req) (serve queued req).1 false [(serve queued req).2] := by
  cases queued with
  | some reqs =>
    cases h with
    | block ha hn =>
      have htx : command req ≠ .TX_READWRITE := by
        rw [hm]
        decide
      obtain ⟨m', a, h5, h6, h7, h8, h9⟩ := MultiHandler.process_block limit ha hn htx
      refine ⟨m', [a], [], h5, h7, h9, ?_, by simpa using h6⟩
      simp only [List.flatMap_cons, List.flatMap_nil, List.append_nil, h8]
  | none =>
    obtain ⟨ha, hr⟩ := hempty rfl
    unfold MultiHandler.process serve
    simp only [ha, hm, ne_eq, not_true_eq_false, decide_false, Bool.and_false,
      Bool.false_eq_true, if_false, reduceCtorEq, if_true]
    by_cases hlen : req.length ≠ 1
    · simp only [if_pos hlen]
      exact ⟨m, _, [], rfl, .idle ha hr, hp, rfl, by simp [Action.Fits]⟩
    · simp only [if_neg hlen]
      refine ⟨_, _, [], rfl, ?_, rfl, rfl, by simp [Action.Fits]⟩
      have hblock : Stands limit
          { transaction := m.transaction.setPhantom false, activated := true }
          (some (m.transaction.setPhantom false).requests) [] := .block rfl rfl
      rw [show (m.transaction.setPhantom false).requests = [] from hr] at hblock
      exact hblock

/-- One request has the effect that it has one by one, after what was pending, unless it is an
EXEC and a batch is open. -/
theorem gives_processRequest (h : Stands limit m queued pending) (req : RedisRequest) :
    Gives limit (processRequest limit m req) (serve queued req).1 (fuses queued req)
      (pending ++ [Effect.serveFused m.isPhantom queued req]) := by
  have hphantom : m.isPhantom = true → queued = none := by
    intro hp
    cases h with
    | idle => rfl
    | batch => rfl
    | block ha hn => simp [MultiHandler.isPhantom, hn] at hp
  obtain ⟨m1, out, h1, h2, h3, h4, -, hnp, hna⟩ := MultiHandler.finalize_spec h
  have hm1 := isPhantom_eq_false hnp
  unfold processRequest
  by_cases he : command req = .EXEC ∧ (!m.activated) = true
  · have hm : command req ≠ .MULTI := by
      rw [he.1]
      decide
    have hw : commandType req ≠ .WRITE := fun hw => (InternalFilter.command_of_write hw).2.1 he.1
    rw [if_neg hm, if_pos he, fuses_eq_false hw]
    exact gives_stray_exec h he.1 (by simpa using he.2)
  have hpast : Effect.serveFused m.isPhantom queued req = passedOn queued req := by
    unfold passedOn Effect.serveFused
    by_cases hexec : command req = .EXEC
    · have hact : m.activated = true := by simpa [hexec] using he
      cases h with
      | idle ha => simp [ha] at hact
      | batch ha hp => simp [MultiHandler.isPhantom, ha, hp]
      | block ha hp => simp [MultiHandler.isPhantom, hp]
    · simp [hexec]
  have hplain : ∀ cmd, command req = cmd → cmd ≠ .EXEC →
      passedOn queued req = (serve queued req).2 := by
    intro cmd hcmd hne
    simp [passedOn, Effect.serveFused, hcmd, hne]
  rw [hpast]
  by_cases hm : command req = .MULTI
  · have hw : commandType req ≠ .WRITE := fun hw => (InternalFilter.command_of_write hw).1 hm
    rw [if_pos hm, hplain _ hm (by decide), fuses_eq_false hw]
    exact gives_andThen h1 h3 h4 (gives_multi h2 hm hm1 hna)
  rw [if_neg hm, if_neg he]
  by_cases htx : command req = .TX_READWRITE
  · have hfuses : fuses queued req = false := by simp [fuses, htx]
    rw [if_pos htx, hplain _ htx (by decide), hfuses]
    have hserve : serve queued req = (queued, .run req) := by
      cases queued <;> simp [serve, htx]
    rw [hserve]
    exact gives_andThen h1 h3 h4 ⟨m1, _, [], rfl, h2, hm1, rfl, by simp [Action.Fits]⟩
  rw [if_neg htx]
  by_cases hl : limit ≤ m.size
  · rw [if_pos hl]
    refine gives_andThen h1 h3 h4 (gives_processActive h2 hm htx fun hp => ?_)
    rw [hm1] at hp
    cases hp
  · rw [if_neg hl]
    exact gives_processActive h hm htx fun _ => by omega

/-! ## Whole runs -/

/-- The requests of a batch that is still open. -/
def heldBack (m : MultiHandler) : List RedisRequest :=
  if m.isPhantom then m.transaction.requests else []

theorem heldBack_of_stands (h : Stands limit m queued pending) : pending = (heldBack m).map .run := by
  unfold heldBack MultiHandler.isPhantom
  cases h with
  | idle ha => simp [ha]
  | batch ha hp => simp [ha, hp]
  | block ha hp => simp [hp]

theorem gives_runAll (h : Stands limit m queued pending) (incoming : List Incoming) :
    ∃ queued' fused, Gives limit (runAll limit m incoming) queued' fused
      (pending ++ Effect.serveCalls queued m.isPhantom incoming) := by
  induction incoming generalizing m queued pending with
  | nil =>
    refine ⟨queued, m.isPhantom, m, [], pending, rfl, h, rfl, ?_, by simp⟩
    rw [Effect.serveCalls, List.append_nil]
    rfl
  | cons x xs ih =>
    -- What one step gives, and what is still expected then.
    have hstep : ∃ queued' fused expected, Gives limit (step limit m x) queued' fused
        (pending ++ expected) ∧ expected ++ Effect.serveCalls queued' fused xs =
          Effect.serveCalls queued m.isPhantom (x :: xs) := by
      cases x with
      | request req => exact ⟨_, _, _, gives_processRequest h req, rfl⟩
      | endOfCall =>
        obtain ⟨m1, out, h1, h2, h3, h4, -, hnp, -⟩ := MultiHandler.finalize_spec h
        refine ⟨queued, false, [], ⟨m1, out, [], h1, h2, isPhantom_eq_false hnp, ?_, h4⟩, rfl⟩
        rw [h3]
    obtain ⟨queued', fused, expected, ⟨m1, out1, pending1, h1, h2, h3, h4, h5⟩, hexp⟩ := hstep
    obtain ⟨queued'', fused', m2, out2, pending2, h6, h7, h8, h9, h10⟩ := ih h2
    refine ⟨queued'', fused', m2, out1 ++ out2, pending2, andThen_ok h1 h6, h7, h8, ?_,
      fun a ha => ?_⟩
    · -- What was pending between the two parts is expected of the second.
      rw [List.flatMap_append, List.append_assoc, h9, ← List.append_assoc, h4, h3,
        List.append_assoc, hexp]
    · rcases List.mem_append.mp ha with ha | ha
      · exact h5 a ha
      · exact h10 a ha

/-- A connection never fails an assertion of its own. What it replies and dispatches, and the
batch it holds back, are the effects of the requests, in order; they are those of the requests
one by one exactly if no EXEC comes right after a fused write in the same call, and such an EXEC
is dispatched instead of refused. As many responses are expected of them as there are requests.
Transactions are never empty, phantom ones are writes only and no more than the limit, and the end
of a call gives away what is held back. -/
theorem fusing_requests_shows_only_at_a_stray_exec (phantomBatchLimit : Nat)
    (incoming : List Incoming) :
    ∃ m out, runAll phantomBatchLimit {} incoming = .ok (m, out) ∧
      out.flatMap Action.effects ++ (heldBack m).map .run =
        Effect.serveCalls none false incoming ∧
      (Effect.serveCalls none false incoming = Effect.serveAll none (requests incoming) ↔
        ¬ Effect.Strays none false incoming) ∧
      (out.map Action.expectedResponses).sum + (heldBack m).length = (requests incoming).length ∧
      (∀ a ∈ out, a.Fits phantomBatchLimit) ∧
      ∃ m' out', step phantomBatchLimit m .endOfCall = .ok (m', out') ∧ heldBack m' = [] ∧
        out'.flatMap Action.effects = (heldBack m).map .run := by
  have hidle : Stands phantomBatchLimit {} none [] := .idle rfl rfl
  obtain ⟨queued, fused, m, out, pending, h1, h2, -, h3, h4⟩ := gives_runAll hidle incoming
  obtain rfl := heldBack_of_stands h2
  rw [List.nil_append] at h3
  refine ⟨m, out, h1, h3, Effect.serveCalls_eq_iff none false incoming, ?_, h4, ?_⟩
  · have hlen := congrArg List.length h3
    rw [Effect.length_serveCalls, List.length_append, List.length_map, List.length_flatMap] at hlen
    rw [← hlen]
    congr 2
    exact List.map_congr_left fun a _ => a.length_effects.symm
  · obtain ⟨m', out', h5, h6, h7, -⟩ := MultiHandler.finalize_spec h2
    have hnone := heldBack_of_stands h6
    exact ⟨m', out', h5, List.map_eq_nil_iff.mp hnone.symm, h7⟩

end Connection

end quarkdb
