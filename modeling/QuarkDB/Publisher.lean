-- Publishing to the subscribers of channels and of patterns: the maps of the
-- publisher, what a queue knows of its own subscriptions, and the threads that
-- use both, at the granularity of what is done under one lock.
import QuarkDB.Iterators
import QuarkDB.StagedIteration

namespace quarkdb

open ByteOrder

/-! ## The maps -/

/-- Keys with a set of values each, as the pairs that are stored. -/
structure ThreadSafeMultiMap (Key Value : Type) where
  contents : List (Key × Value)
  nodup : contents.Nodup

namespace ThreadSafeMultiMap

variable {Key Value : Type} [DecidableEq Key]

def empty : ThreadSafeMultiMap Key Value := { contents := [], nodup := List.nodup_nil }

/-- The keys that have a value. -/
def keys (m : ThreadSafeMultiMap Key Value) : List Key := (m.contents.map Prod.fst).dedup

/-- The values of a key. -/
def values (m : ThreadSafeMultiMap Key Value) (key : Key) : List Value :=
  (m.contents.filter fun e => e.1 = key).map Prod.snd

theorem nodup_keys (m : ThreadSafeMultiMap Key Value) : m.keys.Nodup := List.nodup_dedup _

theorem mem_keys {m : ThreadSafeMultiMap Key Value} {key : Key} :
    key ∈ m.keys ↔ ∃ value, (key, value) ∈ m.contents := by
  simp [keys, List.mem_dedup]

theorem mem_values {m : ThreadSafeMultiMap Key Value} {key : Key} {value : Value} :
    value ∈ m.values key ↔ (key, value) ∈ m.contents := by
  simp [values]

theorem nodup_values (m : ThreadSafeMultiMap Key Value) (key : Key) : (m.values key).Nodup := by
  apply List.Nodup.map_on _ (m.nodup.filter _)
  rintro ⟨k, v⟩ hx ⟨k', v'⟩ hy hv
  have hk := (List.mem_filter.mp hx).2
  have hk' := (List.mem_filter.mp hy).2
  simp only [decide_eq_true_eq] at hk hk' hv
  rw [hk, hk', hv]

variable [DecidableEq Value]

/-- Insert the given key and value - false if it existed already. -/
def insert (m : ThreadSafeMultiMap Key Value) (key : Key) (value : Value) :
    Bool × ThreadSafeMultiMap Key Value :=
  if h : (key, value) ∈ m.contents then (false, m)
  else (true, { contents := (key, value) :: m.contents, nodup := m.nodup.cons h })

/-- Erase the given key-value pair - false if it didn't exist. -/
def erase (m : ThreadSafeMultiMap Key Value) (key : Key) (value : Value) :
    Bool × ThreadSafeMultiMap Key Value :=
  (decide ((key, value) ∈ m.contents),
    { contents := m.contents.erase (key, value), nodup := m.nodup.erase _ })

theorem mem_insert {m : ThreadSafeMultiMap Key Value} {key : Key} {value : Value} {e : Key × Value} :
    e ∈ (m.insert key value).2.contents ↔ e = (key, value) ∨ e ∈ m.contents := by
  unfold insert
  split
  · rename_i h
    constructor
    · exact .inr
    · rintro (rfl | he)
      · exact h
      · exact he
  · exact List.mem_cons

theorem insert_fst {m : ThreadSafeMultiMap Key Value} {key : Key} {value : Value} :
    (m.insert key value).1 = true ↔ (key, value) ∉ m.contents := by
  unfold insert
  split <;> simp_all

theorem contents_erase (m : ThreadSafeMultiMap Key Value) (key : Key) (value : Value) :
    (m.erase key value).2.contents = m.contents.filter fun e => ¬ (e.1 = key ∧ e.2 = value) := by
  unfold erase
  dsimp only
  rw [m.nodup.erase_eq_filter]
  apply List.filter_congr
  rintro ⟨k, v⟩ -
  rw [Bool.eq_iff_iff]
  simp [imp_iff_not_or]

theorem mem_erase {m : ThreadSafeMultiMap Key Value} {key : Key} {value : Value} {e : Key × Value} :
    e ∈ (m.erase key value).2.contents ↔ e ≠ (key, value) ∧ e ∈ m.contents :=
  m.nodup.mem_erase_iff

end ThreadSafeMultiMap

/-! ## The queues -/

/-- A subscription is to a channel, or to the channels that match a pattern. -/
inductive Family
  | channel
  | pattern
  deriving DecidableEq

/-- What is appended to the queue of a connection. -/
inductive Reply
  /-- `Formatter::message` or `Formatter::pmessage`, for a subscription to `item`, with
  the call of `publish` that it comes from for the record. -/
  | message (call : Nat) (family : Family) (item channel payload : Bytes)
  /-- `Formatter::subscribe` and its three siblings. -/
  | ack (family : Family) (adds : Bool) (item : Bytes) (active : Nat)
  | ok
  | errArgs
  | raw (resp : Bytes)
  deriving DecidableEq

/-- What publishing sees of a `PendingQueue`. -/
structure ListenerQueue where
  attached : Bool := true
  pushTypes : Bool := false
  /-- `SubscriptionTracker`: the channels and the patterns. -/
  tracked : Family → List Bytes := fun _ => []
  subscriptions : Nat := 0
  /-- Everything that was appended. -/
  out : List Reply := []

namespace ListenerQueue

def append (q : ListenerQueue) (reply : Reply) : ListenerQueue := { q with out := q.out ++ [reply] }

def setTracked (q : ListenerQueue) (family : Family) (items : List Bytes) : ListenerQueue :=
  { q with tracked := fun f => if f = family then items else q.tracked f }

/-- `subscribe` and `psubscribe`. -/
def add (q : ListenerQueue) (family : Family) (item : Bytes) : ListenerQueue :=
  q.setTracked family ((q.tracked family).insert item)

/-- `unsubscribe` and `punsubscribe`. -/
def remove (q : ListenerQueue) (family : Family) (item : Bytes) : ListenerQueue :=
  q.setTracked family ((q.tracked family).erase item)

/-- `addMessageIfAttached` and `addPatternMessageIfAttached`: is the queue attached,
and what becomes of it. -/
def addItemIfAttached (q : ListenerQueue) (call : Nat) (family : Family)
    (item channel payload : Bytes) : Bool × ListenerQueue :=
  if !q.attached then (false, q)
  else if item ∉ q.tracked family then (true, q)
  else (true, q.append (.message call family item channel payload))

def addMessageIfAttached (q : ListenerQueue) (call : Nat) (channel payload : Bytes) :
    Bool × ListenerQueue := q.addItemIfAttached call .channel channel channel payload

def addPatternMessageIfAttached (q : ListenerQueue) (call : Nat)
    (pattern channel payload : Bytes) : Bool × ListenerQueue :=
  q.addItemIfAttached call .pattern pattern channel payload

def appendIfAttached (q : ListenerQueue) (resp : Bytes) : ListenerQueue :=
  if q.attached then q.append (.raw resp) else q

end ListenerQueue

/-! ## The threads -/

/-- Where the thread of a connection is in `Publisher::dispatch`. -/
inductive Serving
  /-- These items of the request are left. -/
  | items (rest : List Bytes)
  /-- The tracker of the queue knows of the item. -/
  | tracked (item : Bytes) (rest : List Bytes)
  /-- So does the map, whose result it is. -/
  | registered (item : Bytes) (rest : List Bytes) (result : Bool)
  deriving DecidableEq

/-- A request of a connection, which subscribes or unsubscribes. -/
structure Request where
  family : Family
  adds : Bool
  serving : Serving
  deriving DecidableEq

/-- Where a call of `publish` is, named after what comes next. -/
inductive Publishing
  | findMatching
  | addMessageIfAttached (front : Nat) (rest : List Nat)
  | eraseChannel (front : Nat) (rest : List Nat)
  | nextChannel (front : Nat) (rest : List Nat)
  | find
  | findPattern (pattern : Bytes) (patterns : List Bytes)
  | addPatternMessageIfAttached (pattern : Bytes) (patterns : List Bytes) (front : Nat)
      (rest : List Nat)
  | erasePattern (pattern : Bytes) (patterns : List Bytes) (front : Nat) (rest : List Nat)
  | nextMatch (pattern : Bytes) (patterns : List Bytes) (front : Nat) (rest : List Nat)
  | nextPattern (pattern : Bytes) (patterns : List Bytes)
  | done

/-- Where a call of `purgeListeners` is. -/
inductive Purging
  | getFullIterator (family : Family)
  | findMatching (family : Family) (key : Bytes) (keys : List Bytes)
  | appendIfAttached (family : Family) (key : Bytes) (keys : List Bytes) (front : Nat)
      (rest : List Nat)
  | erase (family : Family) (key : Bytes) (keys : List Bytes) (front : Nat) (rest : List Nat)
  | next (family : Family) (key : Bytes) (keys : List Bytes) (front : Nat) (rest : List Nat)
  | nextKey (family : Family) (key : Bytes) (keys : List Bytes)
  | done

inductive PubSubCall
  | publish (channel payload : Bytes) (hits : Nat) (phase : Publishing)
  | purgeListeners (resp : Bytes) (phase : Purging)

structure PubSub where
  /-- `channelSubscriptions`, and the contents of `patternMatcher`. -/
  maps : Family → ThreadSafeMultiMap Bytes Nat
  queues : Nat → ListenerQueue
  /-- What each connection is being served. -/
  requests : Nat → Option Request
  /-- The calls of `publish` and of `purgeListeners` so far. -/
  calls : Nat → Option PubSubCall

/-- One step of one thread, with at most one lock taken. -/
inductive PubSubStep
  /-- SUBSCRIBE, PSUBSCRIBE, UNSUBSCRIBE or PUNSUBSCRIBE. -/
  | request (queue : Nat) (family : Family) (adds : Bool) (items : List Bytes)
  | serve (queue : Nat)
  | activatePushTypes (queue : Nat)
  | detachConnection (queue : Nat)
  | publish (id : Nat) (channel payload : Bytes)
  | purgeListeners (id : Nat) (resp : Bytes)
  /-- A call goes on. -/
  | run (id : Nat)

namespace PubSub

@[simps] def setMap (n : PubSub) (family : Family) (m : ThreadSafeMultiMap Bytes Nat) : PubSub :=
  { n with maps := fun f => if f = family then m else n.maps f }

@[simps] def setQueue (n : PubSub) (queue : Nat) (q : ListenerQueue) : PubSub :=
  { n with queues := fun k => if k = queue then q else n.queues k }

@[simps] def setRequest (n : PubSub) (queue : Nat) (r : Option Request) : PubSub :=
  { n with requests := fun k => if k = queue then r else n.requests k }

@[simps] def setCall (n : PubSub) (id : Nat) (call : PubSubCall) : PubSub :=
  { n with calls := fun k => if k = id then some call else n.calls k }

/-- The elements that an iterator copies at once. -/
def stageSize : Nat := 100

/-! ## Requests -/

/-- The next step of `Publisher::dispatch`. -/
def serve (n : PubSub) (queue : Nat) (r : Request) : PubSub :=
  let q := n.queues queue
  match r.serving with
  | .items [] => (n.setQueue queue (if q.pushTypes then q.append .ok else q)).setRequest queue none
  | .items (item :: rest) =>
    (n.setQueue queue (if r.adds then q.add r.family item else q.remove r.family item)).setRequest
      queue (some { r with serving := .tracked item rest })
  | .tracked item rest =>
    let m := n.maps r.family
    let (result, m) := if r.adds then m.insert item queue else m.erase item queue
    (n.setMap r.family m).setRequest queue
      (some { r with serving := .registered item rest result })
  | .registered item rest result =>
    let active :=
      if r.adds then q.subscriptions + result.toNat else q.subscriptions - result.toNat
    (n.setQueue queue ({ q with subscriptions := active }.append
        (.ack r.family r.adds item active))).setRequest
      queue (some { r with serving := .items rest })

/-! ## Publishing -/

section

variable (stringmatchlen : Bytes → Bytes → Bool)

/-- The test of the loop of `publishChannels`. -/
def channelLoop : Stage Nat → Publishing
  | .invalid => .find
  | .valid front rest => .addMessageIfAttached front rest

/-- `advanceFirstIteratorUntilMatch`, up to the next lock. -/
def advanceUntilMatch (channel : Bytes) : Stage Bytes → Publishing
  | .invalid => .done
  | .valid pattern patterns =>
    if stringmatchlen pattern channel then .findPattern pattern patterns
    else .nextPattern pattern patterns

/-- The test of the loop of `publishPatterns`, and `findMatching` before it. -/
def patternLoop (pattern : Bytes) (patterns : List Bytes) : Stage Nat → Publishing
  | .invalid => .nextPattern pattern patterns
  | .valid front rest => .addPatternMessageIfAttached pattern patterns front rest

/-- The next step of `Publisher::publish`. -/
def publishStep (n : PubSub) (id : Nat) (channel payload : Bytes) (hits : Nat) :
    Publishing → PubSub
  | .findMatching =>
    n.setCall id (.publish channel payload hits (channelLoop
      (Stage.populateStage ((n.maps .channel).values channel) stageSize none)))
  | .addMessageIfAttached front rest =>
    let (stillAlive, q) := (n.queues front).addMessageIfAttached id channel payload
    (n.setQueue front q).setCall id (.publish channel payload (hits + stillAlive.toNat)
      (if stillAlive then .nextChannel front rest else .eraseChannel front rest))
  | .eraseChannel front rest =>
    (n.setMap .channel ((n.maps .channel).erase channel front).2).setCall id
      (.publish channel payload hits (.nextChannel front rest))
  | .nextChannel front rest =>
    n.setCall id (.publish channel payload hits (channelLoop
      ((Stage.valid front rest).next ((n.maps .channel).values channel) stageSize)))
  | .find =>
    n.setCall id (.publish channel payload hits (advanceUntilMatch stringmatchlen channel
      (Stage.populateStage (n.maps .pattern).keys stageSize none)))
  | .findPattern pattern patterns =>
    n.setCall id (.publish channel payload hits (patternLoop pattern patterns
      (Stage.populateStage ((n.maps .pattern).values pattern) stageSize none)))
  | .addPatternMessageIfAttached pattern patterns front rest =>
    let (stillAlive, q) := (n.queues front).addPatternMessageIfAttached id pattern channel payload
    (n.setQueue front q).setCall id (.publish channel payload (hits + stillAlive.toNat)
      (if stillAlive then .nextMatch pattern patterns front rest
        else .erasePattern pattern patterns front rest))
  | .erasePattern pattern patterns front rest =>
    (n.setMap .pattern ((n.maps .pattern).erase pattern front).2).setCall id
      (.publish channel payload hits (.nextMatch pattern patterns front rest))
  | .nextMatch pattern patterns front rest =>
    n.setCall id (.publish channel payload hits (patternLoop pattern patterns
      ((Stage.valid front rest).next ((n.maps .pattern).values pattern) stageSize)))
  | .nextPattern pattern patterns =>
    n.setCall id (.publish channel payload hits (advanceUntilMatch stringmatchlen channel
      ((Stage.valid pattern patterns).next (n.maps .pattern).keys stageSize)))
  | .done => n

/-! ## Purging -/

/-- The test at the head of `findValidMatchIter`, and what follows the last key. -/
def purgeKeys (family : Family) : Stage Bytes → Purging
  | .invalid => if family = .channel then .getFullIterator .pattern else .done
  | .valid key keys => .findMatching family key keys

/-- The next step of `Publisher::purgeListeners`. -/
def purgeStep (n : PubSub) (id : Nat) (resp : Bytes) : Purging → PubSub
  | .getFullIterator family =>
    n.setCall id (.purgeListeners resp (purgeKeys family
      (Stage.populateStage (n.maps family).keys stageSize none)))
  | .findMatching family key keys =>
    match Stage.populateStage ((n.maps family).values key) stageSize none with
    -- The loop of `findValidMatchIter` looks at the same key again.
    | .invalid => n
    | .valid front rest =>
      n.setCall id (.purgeListeners resp (.appendIfAttached family key keys front rest))
  | .appendIfAttached family key keys front rest =>
    (n.setQueue front ((n.queues front).appendIfAttached resp)).setCall id
      (.purgeListeners resp (.erase family key keys front rest))
  | .erase family key keys front rest =>
    (n.setMap family ((n.maps family).erase key front).2).setCall id
      (.purgeListeners resp (.next family key keys front rest))
  | .next family key keys front rest =>
    match (Stage.valid front rest).next ((n.maps family).values key) stageSize with
    | .invalid => n.setCall id (.purgeListeners resp (.nextKey family key keys))
    | .valid front rest =>
      n.setCall id (.purgeListeners resp (.appendIfAttached family key keys front rest))
  | .nextKey family key keys =>
    n.setCall id (.purgeListeners resp (purgeKeys family
      ((Stage.valid key keys).next (n.maps family).keys stageSize)))
  | .done => n

/-! ## Runs -/

/-- What a step makes of the publisher: nothing where the thread is busy or gone. -/
def next (n : PubSub) : PubSubStep → PubSub
  | .request queue family adds items =>
    if (n.queues queue).attached ∧ n.requests queue = none then
      if items = [] then n.setQueue queue ((n.queues queue).append .errArgs)
      else n.setRequest queue (some { family, adds, serving := .items items })
    else n
  | .serve queue =>
    match n.requests queue with
    | some r => n.serve queue r
    | none => n
  | .activatePushTypes queue => n.setQueue queue { n.queues queue with pushTypes := true }
  | .detachConnection queue =>
    if n.requests queue = none then n.setQueue queue { n.queues queue with attached := false }
    else n
  | .publish id channel payload =>
    match n.calls id with
    | none => n.setCall id (.publish channel payload 0 .findMatching)
    | some _ => n
  | .purgeListeners id resp =>
    match n.calls id with
    | none => n.setCall id (.purgeListeners resp (.getFullIterator .channel))
    | some _ => n
  | .run id =>
    match n.calls id with
    | some (.publish channel payload hits phase) =>
      n.publishStep stringmatchlen id channel payload hits phase
    | some (.purgeListeners resp phase) => n.purgeStep id resp phase
    | none => n

def runAll (n : PubSub) (xs : List PubSubStep) : PubSub := xs.foldl (next stringmatchlen) n

end

/-- A publisher that nobody subscribed to. -/
def start : PubSub :=
  { maps := fun _ => .empty, queues := fun _ => {}, requests := fun _ => none
    calls := fun _ => none }

end PubSub

end quarkdb
