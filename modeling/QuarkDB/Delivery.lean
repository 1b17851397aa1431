-- What publishing delivers: one message for each subscription that stands during
-- the whole call, the messages of a call before those of a later one, and none to
-- a queue that was told that it left the channel.
import QuarkDB.SubscriptionCounts

namespace quarkdb

namespace Reply

def isMessage : Reply → Bool
  | .message _ _ _ _ _ => true
  | _ => false

/-- A message for a subscription. -/
def isFor (family : Family) (item : Bytes) : Reply → Bool
  | .message _ f i _ _ => f = family && i = item
  | _ => false

/-- A message that a call of `publish` delivers. -/
def isOf (call : Nat) : Reply → Bool
  | .message c _ _ _ _ => c = call
  | _ => false

end Reply

namespace PubSub

open ByteOrder

variable (stringmatchlen : Bytes → Bytes → Bool)

/-! ## What a step delivers -/

/-- The messages that a queue was sent. -/
def messages (n : PubSub) (queue : Nat) : List Reply := (n.queues queue).out.filter Reply.isMessage

/-- The subscription that a call of `publish` is about to send to. -/
def target (channel : Bytes) : Publishing → Option (Family × Bytes × Nat)
  | .addMessageIfAttached front _ => some (.channel, channel, front)
  | .addPatternMessageIfAttached pattern _ front _ => some (.pattern, pattern, front)
  | _ => none

/-- What a call of `publish` sends to a queue next. -/
def sends (n : PubSub) (id : Nat) (channel payload : Bytes) (phase : Publishing) (queue : Nat) :
    List Reply :=
  match target channel phase with
  | some (family, item, front) =>
    if front = queue ∧ (n.queues queue).attached = true ∧ item ∈ (n.queues queue).tracked family then
      [.message id family item channel payload]
    else []
  | none => []

def delivered (n : PubSub) (x : PubSubStep) (queue : Nat) : List Reply :=
  match x with
  | .run id =>
    match n.calls id with
    | some (.publish channel payload _ phase) => n.sends id channel payload phase queue
    | _ => []
  | _ => []

theorem messages_setQueue {n : PubSub} {k : Nat} {q : ListenerQueue} {l : List Reply}
    (h : q.out.filter Reply.isMessage = n.messages k ++ l) (queue : Nat) :
    (n.setQueue k q).messages queue = n.messages queue ++ if queue = k then l else [] := by
  unfold messages at h ⊢
  rw [setQueue_queues]
  by_cases hk : queue = k
  · rw [if_pos hk, if_pos hk, h, hk]
  · rw [if_neg hk, if_neg hk, List.append_nil]

theorem messages_setQueue_same {n : PubSub} {k : Nat} {q : ListenerQueue}
    (h : q.out.filter Reply.isMessage = n.messages k) (queue : Nat) :
    (n.setQueue k q).messages queue = n.messages queue := by
  rw [messages_setQueue (l := []) (by rw [h, List.append_nil])]
  split <;> exact List.append_nil _

theorem filter_append (q : ListenerQueue) {reply : Reply} (h : reply.isMessage = false) :
    (q.append reply).out.filter Reply.isMessage = q.out.filter Reply.isMessage := by
  unfold ListenerQueue.append
  rw [List.filter_append, List.filter_cons_of_neg (by simp [h]), List.filter_nil, List.append_nil]

theorem messages_serve (n : PubSub) (k : Nat) (r : Request) (queue : Nat) :
    (n.serve k r).messages queue = n.messages queue := by
  unfold serve
  dsimp only
  split
  · apply messages_setQueue_same _ queue
    split
    · exact filter_append _ rfl
    · rfl
  · apply messages_setQueue_same _ queue
    split <;> rfl
  · rfl
  · apply messages_setQueue_same _ queue
    exact filter_append _ rfl

theorem messages_addItemIfAttached (n : PubSub) (id : Nat) (family : Family)
    (item channel payload : Bytes) (front queue : Nat) :
    (n.setQueue front ((n.queues front).addItemIfAttached id family item channel payload).2).messages
      queue = n.messages queue ++
        if front = queue ∧ (n.queues queue).attached = true ∧
            item ∈ (n.queues queue).tracked family then
          [.message id family item channel payload] else [] := by
  have hf : ((n.queues front).addItemIfAttached id family item channel payload).2.out.filter
      Reply.isMessage = n.messages front ++
        if (n.queues front).attached = true ∧ item ∈ (n.queues front).tracked family then
          [.message id family item channel payload] else [] := by
    unfold ListenerQueue.addItemIfAttached
    cases ha : (n.queues front).attached with
    | false => simp [messages]
    | true =>
      by_cases hi : item ∈ (n.queues front).tracked family
      · simp [hi, ListenerQueue.append, messages, Reply.isMessage]
      · simp [hi, messages]
  rw [messages_setQueue hf]
  by_cases hq : queue = front
  · subst hq
    simp
  · simp [hq, Ne.symm hq]

theorem messages_publishStep (n : PubSub) (id : Nat) (channel payload : Bytes) (hits : Nat)
    (phase : Publishing) (queue : Nat) :
    (n.publishStep stringmatchlen id channel payload hits phase).messages queue =
      n.messages queue ++ n.sends id channel payload phase queue := by
  cases phase with
  | addMessageIfAttached front rest =>
    exact messages_addItemIfAttached n id .channel channel channel payload front queue
  | addPatternMessageIfAttached pattern patterns front rest =>
    exact messages_addItemIfAttached n id .pattern pattern channel payload front queue
  | _ => exact (List.append_nil _).symm

theorem messages_purgeStep (n : PubSub) (id : Nat) (resp : Bytes) (phase : Purging) (queue : Nat) :
    (n.purgeStep id resp phase).messages queue = n.messages queue := by
  cases phase with
  | appendIfAttached family key keys front rest =>
    apply messages_setQueue_same _ queue
    unfold ListenerQueue.appendIfAttached
    split
    · exact filter_append _ rfl
    · rfl
  | findMatching family key keys =>
    unfold purgeStep
    dsimp only
    split <;> rfl
  | next family key keys front rest =>
    unfold purgeStep
    dsimp only
    split <;> rfl
  | _ => rfl

/-- The messages of a queue grow by what the step delivers. -/
theorem messages_next (n : PubSub) (x : PubSubStep) (queue : Nat) :
    (n.next stringmatchlen x).messages queue = n.messages queue ++ n.delivered x queue := by
  cases x with
  | run id =>
    unfold next delivered
    dsimp only
    cases hc : n.calls id with
    | none => exact (List.append_nil _).symm
    | some call =>
      cases call with
      | publish channel payload hits phase =>
        exact messages_publishStep stringmatchlen n id channel payload hits phase queue
      | purgeListeners resp phase =>
        dsimp only
        rw [messages_purgeStep, List.append_nil]
  | request k family adds items =>
    unfold next delivered
    dsimp only
    rw [List.append_nil]
    split
    · split
      · apply messages_setQueue_same _ queue
        exact filter_append _ rfl
      · rfl
    · rfl
  | serve k =>
    unfold next delivered
    dsimp only
    rw [List.append_nil]
    split
    · exact messages_serve n k _ queue
    · rfl
  | activatePushTypes k =>
    unfold delivered
    rw [List.append_nil]
    apply messages_setQueue_same _ queue
    rfl
  | detachConnection k =>
    unfold next delivered
    dsimp only
    rw [List.append_nil]
    split
    · apply messages_setQueue_same _ queue
      rfl
    · rfl
  | publish id channel payload =>
    unfold next delivered
    dsimp only
    rw [List.append_nil]
    split <;> rfl
  | purgeListeners id resp =>
    unfold next delivered
    dsimp only
    rw [List.append_nil]
    split <;> rfl

/-! ## Where a call of `publish` stands -/

/-- The phase that follows. -/
def nextPhase (n : PubSub) (channel : Bytes) : Publishing → Publishing
  | .findMatching =>
    channelLoop (Stage.populateStage ((n.maps .channel).values channel) stageSize none)
  | .addMessageIfAttached front rest =>
    if (n.queues front).attached then .nextChannel front rest else .eraseChannel front rest
  | .eraseChannel front rest => .nextChannel front rest
  | .nextChannel front rest =>
    channelLoop ((Stage.valid front rest).next ((n.maps .channel).values channel) stageSize)
  | .find =>
    advanceUntilMatch stringmatchlen channel
      (Stage.populateStage (n.maps .pattern).keys stageSize none)
  | .findPattern pattern patterns =>
    patternLoop pattern patterns
      (Stage.populateStage ((n.maps .pattern).values pattern) stageSize none)
  | .addPatternMessageIfAttached pattern patterns front rest =>
    if (n.queues front).attached then .nextMatch pattern patterns front rest
    else .erasePattern pattern patterns front rest
  | .erasePattern pattern patterns front rest => .nextMatch pattern patterns front rest
  | .nextMatch pattern patterns front rest =>
    patternLoop pattern patterns
      ((Stage.valid front rest).next ((n.maps .pattern).values pattern) stageSize)
  | .nextPattern pattern patterns =>
    advanceUntilMatch stringmatchlen channel
      ((Stage.valid pattern patterns).next (n.maps .pattern).keys stageSize)
  | .done => .done

theorem calls_publishStep {n : PubSub} {id : Nat} {channel payload : Bytes} {hits : Nat}
    {phase : Publishing} (hc : n.calls id = some (.publish channel payload hits phase)) :
    ∃ hits', (n.publishStep stringmatchlen id channel payload hits phase).calls id =
      some (.publish channel payload hits' (nextPhase stringmatchlen n channel phase)) := by
  have hnew : ∀ (m : PubSub) hits' phase',
      (m.setCall id (.publish channel payload hits' phase')).calls id =
        some (.publish channel payload hits' phase') := by
    intro m hits' phase'
    simp
  cases phase with
  | done => exact ⟨hits, hc⟩
  | addMessageIfAttached front rest =>
    have hf : ((n.queues front).addMessageIfAttached id channel payload).1 =
        (n.queues front).attached := (addItemIfAttached_frame _ _ _ _ _ _).2.2.2
    refine ⟨hits + ((n.queues front).addMessageIfAttached id channel payload).1.toNat, ?_⟩
    unfold publishStep nextPhase
    dsimp only
    rw [hf]
    exact hnew _ _ _
  | addPatternMessageIfAttached pattern patterns front rest =>
    have hf : ((n.queues front).addPatternMessageIfAttached id pattern channel payload).1 =
        (n.queues front).attached := (addItemIfAttached_frame _ _ _ _ _ _).2.2.2
    refine ⟨hits + ((n.queues front).addPatternMessageIfAttached id pattern channel payload).1.toNat, ?_⟩
    unfold publishStep nextPhase
    dsimp only
    rw [hf]
    exact hnew _ _ _
  | _ => exact ⟨_, hnew _ _ _⟩

/-- The stages of the iterators go upwards. -/
def SortedPhase : Publishing → Prop
  | .addMessageIfAttached front rest => (Stage.valid front rest).Sorted
  | .eraseChannel front rest => (Stage.valid front rest).Sorted
  | .nextChannel front rest => (Stage.valid front rest).Sorted
  | .findPattern pattern patterns => (Stage.valid pattern patterns).Sorted
  | .nextPattern pattern patterns => (Stage.valid pattern patterns).Sorted
  | .addPatternMessageIfAttached pattern patterns front rest =>
    (Stage.valid pattern patterns).Sorted ∧ (Stage.valid front rest).Sorted
  | .erasePattern pattern patterns front rest =>
    (Stage.valid pattern patterns).Sorted ∧ (Stage.valid front rest).Sorted
  | .nextMatch pattern patterns front rest =>
    (Stage.valid pattern patterns).Sorted ∧ (Stage.valid front rest).Sorted
  | _ => True

/-- The call has not yet come to a queue under the channel. -/
def ChannelAhead (queue : Nat) : Publishing → Prop
  | .findMatching => True
  | .addMessageIfAttached front rest => (Stage.valid front rest).Ahead queue
  | .eraseChannel front rest => queue ≠ front ∧ (Stage.valid front rest).Ahead queue
  | .nextChannel front rest => queue ≠ front ∧ (Stage.valid front rest).Ahead queue
  | _ => False

/-- The call has come past a queue under the channel. -/
def ChannelPassed (queue : Nat) : Publishing → Prop
  | .findMatching => False
  | .addMessageIfAttached front rest => (Stage.valid front rest).Passed queue
  | .eraseChannel front _ => queue ≤ front
  | .nextChannel front _ => queue ≤ front
  | _ => True

/-- The call has not yet come to a queue under a pattern. -/
def PatternAhead (item : Bytes) (queue : Nat) : Publishing → Prop
  | .findPattern pattern patterns => (Stage.valid pattern patterns).Ahead item
  | .nextPattern pattern patterns =>
    item ≠ pattern ∧ (Stage.valid pattern patterns).Ahead item
  | .addPatternMessageIfAttached pattern patterns front rest =>
    item = pattern ∧ (Stage.valid front rest).Ahead queue ∨
      item ≠ pattern ∧ (Stage.valid pattern patterns).Ahead item
  | .erasePattern pattern patterns front rest =>
    item = pattern ∧ queue ≠ front ∧ (Stage.valid front rest).Ahead queue ∨
      item ≠ pattern ∧ (Stage.valid pattern patterns).Ahead item
  | .nextMatch pattern patterns front rest =>
    item = pattern ∧ queue ≠ front ∧ (Stage.valid front rest).Ahead queue ∨
      item ≠ pattern ∧ (Stage.valid pattern patterns).Ahead item
  | .done => False
  | _ => True

/-- The call has come past a queue under a pattern. -/
def PatternPassed (item : Bytes) (queue : Nat) : Publishing → Prop
  | .findPattern pattern _ => item < pattern
  | .nextPattern pattern _ => item ≤ pattern
  | .addPatternMessageIfAttached pattern _ front _ =>
    item < pattern ∨ item = pattern ∧ queue < front
  | .erasePattern pattern _ front _ => item < pattern ∨ item = pattern ∧ queue ≤ front
  | .nextMatch pattern _ front _ => item < pattern ∨ item = pattern ∧ queue ≤ front
  | .done => True
  | _ => False

theorem stageSize_pos : 0 < stageSize := by decide

theorem sortedPhase_channelLoop {s : Stage Nat} (h : s.Sorted) : SortedPhase (channelLoop s) := by
  cases s with
  | invalid => trivial
  | valid front rest => exact h

theorem sortedPhase_patternLoop {pattern : Bytes} {patterns : List Bytes} {s : Stage Nat}
    (hp : (Stage.valid pattern patterns).Sorted) (h : s.Sorted) :
    SortedPhase (patternLoop pattern patterns s) := by
  cases s with
  | invalid => exact hp
  | valid front rest => exact ⟨hp, h⟩

theorem sortedPhase_advance {channel : Bytes} {s : Stage Bytes} (h : s.Sorted) :
    SortedPhase (advanceUntilMatch stringmatchlen channel s) := by
  cases s with
  | invalid => trivial
  | valid pattern patterns =>
    unfold advanceUntilMatch
    dsimp only
    split
    · exact h
    · exact h

theorem sortedPhase_next (n : PubSub) (channel : Bytes) {phase : Publishing}
    (h : SortedPhase phase) : SortedPhase (nextPhase stringmatchlen n channel phase) := by
  have hvalues := fun family => (n.maps family).nodup_values
  have hkeys := (n.maps .pattern).nodup_keys
  cases phase with
  | findMatching =>
    exact sortedPhase_channelLoop (Stage.sorted_populateStage (hvalues _ _) _ _)
  | addMessageIfAttached front rest =>
    unfold nextPhase
    dsimp only
    split <;> exact h
  | eraseChannel front rest => exact h
  | nextChannel front rest => exact sortedPhase_channelLoop (Stage.sorted_next (hvalues _ _) _ h)
  | find => exact sortedPhase_advance _ (Stage.sorted_populateStage hkeys _ _)
  | findPattern pattern patterns =>
    exact sortedPhase_patternLoop h (Stage.sorted_populateStage (hvalues _ _) _ _)
  | addPatternMessageIfAttached pattern patterns front rest =>
    unfold nextPhase
    dsimp only
    split <;> exact h
  | erasePattern pattern patterns front rest => exact h
  | nextMatch pattern patterns front rest =>
    exact sortedPhase_patternLoop h.1 (Stage.sorted_next (hvalues _ _) _ h.2)
  | nextPattern pattern patterns =>
    exact sortedPhase_advance _ (Stage.sorted_next hkeys _ h)
  | done => trivial

/-! ## One step of a call -/

theorem channelAhead_channelLoop {queue : Nat} {s : Stage Nat} (h : s.Ahead queue) :
    ChannelAhead queue (channelLoop s) := by
  cases s with
  | invalid => exact h
  | valid front rest => exact h

theorem channelPassed_channelLoop {queue : Nat} {s : Stage Nat} (h : s.Passed queue) :
    ChannelPassed queue (channelLoop s) := by
  cases s with
  | invalid => trivial
  | valid front rest => exact h

theorem channelPassed_advance (queue : Nat) (channel : Bytes) (s : Stage Bytes) :
    ChannelPassed queue (advanceUntilMatch stringmatchlen channel s) := by
  cases s with
  | invalid => trivial
  | valid pattern patterns =>
    unfold advanceUntilMatch
    dsimp only
    split <;> trivial

theorem channelPassed_patternLoop (queue : Nat) (pattern : Bytes) (patterns : List Bytes)
    (s : Stage Nat) : ChannelPassed queue (patternLoop pattern patterns s) := by
  cases s <;> trivial

/-- While a queue is registered under the channel, a call comes to it once. -/
theorem channel_next {n : PubSub} {channel : Bytes} {queue : Nat} {phase : Publishing}
    (hs : SortedPhase phase) (hm : (channel, queue) ∈ (n.maps .channel).contents) :
    (ChannelAhead queue phase →
      if target channel phase = some (.channel, channel, queue) then
        ChannelPassed queue (nextPhase stringmatchlen n channel phase)
      else ChannelAhead queue (nextPhase stringmatchlen n channel phase)) ∧
    (ChannelPassed queue phase → target channel phase ≠ some (.channel, channel, queue) ∧
      ChannelPassed queue (nextPhase stringmatchlen n channel phase)) := by
  have hnodup := (n.maps .channel).nodup_values channel
  have hv := ThreadSafeMultiMap.mem_values.mpr hm
  cases phase with
  | findMatching =>
    refine ⟨fun _ => ?_, fun h => absurd h id⟩
    rw [if_neg (by simp [target])]
    apply channelAhead_channelLoop
    exact Stage.ahead_populateStage hnodup stageSize_pos hv (by simp)
  | addMessageIfAttached front rest =>
    constructor
    · intro h
      by_cases hq : front = queue
      · rw [if_pos (by simp [target, hq])]
        unfold nextPhase
        dsimp only
        split <;> exact le_of_eq hq.symm
      · rw [if_neg (by simp [target, hq])]
        unfold nextPhase
        dsimp only
        split <;> exact ⟨Ne.symm hq, h⟩
    · intro h
      have hlt : queue < front := h
      refine ⟨by simp [target]; omega, ?_⟩
      unfold nextPhase
      dsimp only
      split <;> exact le_of_lt hlt
  | eraseChannel front rest =>
    refine ⟨fun h => ?_, fun h => ⟨by simp [target], h⟩⟩
    rw [if_neg (by simp [target])]
    exact h
  | nextChannel front rest =>
    refine ⟨fun h => ?_, fun h => ⟨by simp [target], ?_⟩⟩
    · rw [if_neg (by simp [target])]
      exact channelAhead_channelLoop (Stage.ahead_next hnodup stageSize_pos hv h.1 h.2)
    · exact channelPassed_channelLoop (Stage.passed_next hs h)
  | find => exact ⟨fun h => absurd h id, fun _ => ⟨by simp [target], channelPassed_advance _ _ _ _⟩⟩
  | findPattern pattern patterns =>
    exact ⟨fun h => absurd h id, fun _ => ⟨by simp [target], channelPassed_patternLoop _ _ _ _⟩⟩
  | addPatternMessageIfAttached pattern patterns front rest =>
    refine ⟨fun h => absurd h id, fun _ => ⟨by simp [target], ?_⟩⟩
    unfold nextPhase
    dsimp only
    split <;> trivial
  | erasePattern pattern patterns front rest =>
    exact ⟨fun h => absurd h id, fun _ => ⟨by simp [target], trivial⟩⟩
  | nextMatch pattern patterns front rest =>
    exact ⟨fun h => absurd h id, fun _ => ⟨by simp [target], channelPassed_patternLoop _ _ _ _⟩⟩
  | nextPattern pattern patterns =>
    exact ⟨fun h => absurd h id, fun _ => ⟨by simp [target], channelPassed_advance _ _ _ _⟩⟩
  | done => exact ⟨fun h => absurd h id, fun _ => ⟨by simp [target], trivial⟩⟩

theorem patternAhead_channelLoop (item : Bytes) (queue : Nat) (s : Stage Nat) :
    PatternAhead item queue (channelLoop s) := by
  cases s <;> trivial

/-- An iterator that has a matching pattern ahead of it comes to it. -/
theorem patternAhead_advance {channel item : Bytes} (queue : Nat)
    (hmatch : stringmatchlen item channel = true) {s : Stage Bytes} (h : s.Ahead item) :
    PatternAhead item queue (advanceUntilMatch stringmatchlen channel s) := by
  cases s with
  | invalid => exact h
  | valid pattern patterns =>
    unfold advanceUntilMatch
    dsimp only
    split
    · exact h
    · rename_i hno
      refine ⟨?_, h⟩
      rintro rfl
      exact hno hmatch

theorem patternPassed_advance {channel item : Bytes} (queue : Nat) {s : Stage Bytes}
    (h : s.Passed item) : PatternPassed item queue (advanceUntilMatch stringmatchlen channel s) := by
  cases s with
  | invalid => trivial
  | valid pattern patterns =>
    unfold advanceUntilMatch
    dsimp only
    split
    · exact h
    · exact le_of_lt h

theorem patternAhead_patternLoop {item pattern : Bytes} {patterns : List Bytes} {queue : Nat}
    {s : Stage Nat} (h : item = pattern ∧ s.Ahead queue ∨
      item ≠ pattern ∧ (Stage.valid pattern patterns).Ahead item) :
    PatternAhead item queue (patternLoop pattern patterns s) := by
  cases s with
  | invalid =>
    rcases h with ⟨-, h⟩ | h
    · exact absurd h id
    · exact h
  | valid front rest => exact h

theorem patternPassed_patternLoop {item pattern : Bytes} {patterns : List Bytes} {queue : Nat}
    {s : Stage Nat} (h : item < pattern ∨ item = pattern ∧ s.Passed queue) :
    PatternPassed item queue (patternLoop pattern patterns s) := by
  cases s with
  | invalid =>
    rcases h with h | ⟨h, -⟩
    · exact le_of_lt h
    · exact le_of_eq h
  | valid front rest => exact h

/-- While a queue is registered under a pattern that matches, a call comes to it once. -/
theorem pattern_next {n : PubSub} {channel item : Bytes} {queue : Nat} {phase : Publishing}
    (hs : SortedPhase phase) (hm : (item, queue) ∈ (n.maps .pattern).contents)
    (hmatch : stringmatchlen item channel = true) :
    (PatternAhead item queue phase →
      if target channel phase = some (.pattern, item, queue) then
        PatternPassed item queue (nextPhase stringmatchlen n channel phase)
      else PatternAhead item queue (nextPhase stringmatchlen n channel phase)) ∧
    (PatternPassed item queue phase → target channel phase ≠ some (.pattern, item, queue) ∧
      PatternPassed item queue (nextPhase stringmatchlen n channel phase)) := by
  have hkeys := (n.maps .pattern).nodup_keys
  have hk : item ∈ (n.maps .pattern).keys := ThreadSafeMultiMap.mem_keys.mpr ⟨queue, hm⟩
  have hnodup := (n.maps .pattern).nodup_values item
  have hv := ThreadSafeMultiMap.mem_values.mpr hm
  cases phase with
  | findMatching =>
    refine ⟨fun _ => ?_, fun h => absurd h id⟩
    rw [if_neg (by simp [target])]
    exact patternAhead_channelLoop _ _ _
  | addMessageIfAttached front rest =>
    refine ⟨fun _ => ?_, fun h => absurd h id⟩
    rw [if_neg (by simp [target])]
    unfold nextPhase
    dsimp only
    split <;> trivial
  | eraseChannel front rest =>
    refine ⟨fun _ => ?_, fun h => absurd h id⟩
    rw [if_neg (by simp [target])]
    trivial
  | nextChannel front rest =>
    refine ⟨fun _ => ?_, fun h => absurd h id⟩
    rw [if_neg (by simp [target])]
    exact patternAhead_channelLoop _ _ _
  | find =>
    refine ⟨fun _ => ?_, fun h => absurd h id⟩
    rw [if_neg (by simp [target])]
    apply patternAhead_advance _ _ hmatch
    exact Stage.ahead_populateStage hkeys stageSize_pos hk (by simp)
  | findPattern pattern patterns =>
    constructor
    · intro h
      rw [if_neg (by simp [target])]
      apply patternAhead_patternLoop
      by_cases hp : item = pattern
      · subst hp
        exact .inl ⟨rfl, Stage.ahead_populateStage hnodup stageSize_pos hv (by simp)⟩
      · exact .inr ⟨hp, h⟩
    · intro h
      exact ⟨by simp [target], patternPassed_patternLoop (.inl h)⟩
  | addPatternMessageIfAttached pattern patterns front rest =>
    constructor
    · intro h
      by_cases ht : pattern = item ∧ front = queue
      · rw [if_pos (by simp [target, ht])]
        unfold nextPhase
        dsimp only
        split <;> exact .inr ⟨ht.1.symm, le_of_eq ht.2.symm⟩
      · rw [if_neg (by simpa [target] using ht)]
        have hnext : item = pattern ∧ queue ≠ front ∧ (Stage.valid front rest).Ahead queue ∨
            item ≠ pattern ∧ (Stage.valid pattern patterns).Ahead item := by
          rcases h with ⟨hp, h⟩ | h
          · exact .inl ⟨hp, fun hq => ht ⟨hp.symm, hq.symm⟩, h⟩
          · exact .inr h
        unfold nextPhase
        dsimp only
        split <;> exact hnext
    · intro h
      have hno : ¬ (pattern = item ∧ front = queue) := by
        rintro ⟨rfl, rfl⟩
        rcases h with h | ⟨-, h⟩
        · exact lt_irrefl _ h
        · exact lt_irrefl _ h
      refine ⟨by simpa [target] using hno, ?_⟩
      have hnext : item < pattern ∨ item = pattern ∧ queue ≤ front :=
        h.imp id fun h => ⟨h.1, le_of_lt h.2⟩
      unfold nextPhase
      dsimp only
      split <;> exact hnext
  | erasePattern pattern patterns front rest =>
    refine ⟨fun h => ?_, fun h => ⟨by simp [target], h⟩⟩
    rw [if_neg (by simp [target])]
    exact h
  | nextMatch pattern patterns front rest =>
    constructor
    · intro h
      rw [if_neg (by simp [target])]
      apply patternAhead_patternLoop
      rcases h with ⟨rfl, hq, h⟩ | h
      · exact .inl ⟨rfl, Stage.ahead_next hnodup stageSize_pos hv hq h⟩
      · exact .inr h
    · intro h
      refine ⟨by simp [target], patternPassed_patternLoop ?_⟩
      exact h.imp id fun h => ⟨h.1, Stage.passed_next hs.2 h.2⟩
  | nextPattern pattern patterns =>
    constructor
    · intro h
      rw [if_neg (by simp [target])]
      exact patternAhead_advance _ _ hmatch (Stage.ahead_next hkeys stageSize_pos hk h.1 h.2)
    · intro h
      exact ⟨by simp [target], patternPassed_advance _ _ (Stage.passed_next hs h)⟩
  | done => exact ⟨fun h => absurd h id, fun _ => ⟨by simp [target], trivial⟩⟩

/-! ## Calls among other steps -/

/-- What is delivered comes from a call that goes on, for an item that the queue tracks. -/
theorem mem_delivered {n : PubSub} {x : PubSubStep} {queue : Nat} {r : Reply}
    (hr : r ∈ n.delivered x queue) : ∃ id channel payload hits phase family item,
      x = .run id ∧ n.calls id = some (.publish channel payload hits phase) ∧ phase ≠ .done ∧
      r = .message id family item channel payload ∧ item ∈ (n.queues queue).tracked family := by
  unfold delivered at hr
  split at hr
  · rename_i id
    split at hr
    · rename_i channel payload hits phase hc
      unfold sends at hr
      split at hr
      · rename_i family item front ht
        split at hr
        · rename_i hl
          refine ⟨id, channel, payload, hits, phase, family, item, rfl, hc, ?_,
            List.mem_singleton.mp hr, hl.2.2⟩
          rintro rfl
          cases ht
        · cases hr
      · cases hr
    · cases hr
  · cases hr

theorem calls_next {n : PubSub} {x : PubSubStep} {id : Nat} {call : PubSubCall}
    (h : n.calls id = some call) (hx : x ≠ .run id) :
    (n.next stringmatchlen x).calls id = some call := by
  cases x with
  | request k family adds items =>
    unfold next
    dsimp only
    split
    · split <;> exact h
    · exact h
  | serve k =>
    unfold next
    dsimp only
    split
    · rw [calls_serve]
      exact h
    · exact h
  | activatePushTypes k => exact h
  | detachConnection k =>
    unfold next
    dsimp only
    split <;> exact h
  | publish k channel payload =>
    unfold next
    dsimp only
    split
    · rename_i hk
      rw [setCall_calls, if_neg]
      · exact h
      · rintro rfl
        rw [h] at hk
        cases hk
    · exact h
  | purgeListeners k resp =>
    unfold next
    dsimp only
    split
    · rename_i hk
      rw [setCall_calls, if_neg]
      · exact h
      · rintro rfl
        rw [h] at hk
        cases hk
    · exact h
  | run k =>
    have hk : id ≠ k := by
      rintro rfl
      exact hx rfl
    unfold next
    dsimp only
    split
    · rw [calls_publishStep_other stringmatchlen n hk]
      exact h
    · rename_i resp phase hc
      rw [← h]
      cases phase with
      | done => rfl
      | findMatching family key keys =>
        unfold purgeStep
        dsimp only
        split
        · rfl
        · simp [hk]
      | next family key keys front rest =>
        unfold purgeStep
        dsimp only
        split <;> simp [hk]
      | _ => simp [purgeStep, hk]
    · exact h

/-- A call that was made stays known. -/
theorem calls_isSome_next {n : PubSub} {id : Nat} (h : (n.calls id).isSome = true)
    (x : PubSubStep) : ((n.next stringmatchlen x).calls id).isSome = true := by
  obtain ⟨call, hc⟩ := Option.isSome_iff_exists.mp h
  by_cases hx : x = .run id
  · subst hx
    unfold next
    dsimp only
    rw [hc]
    cases call with
    | publish channel payload hits phase =>
      obtain ⟨hits', h'⟩ := calls_publishStep stringmatchlen hc
      dsimp only
      rw [h']
      rfl
    | purgeListeners resp phase =>
      rcases calls_purgeStep n id resp phase id with h' | ⟨phase', h'⟩
      · dsimp only
        rw [h', hc]
        rfl
      · dsimp only
        rw [h']
        rfl
  · rw [calls_next stringmatchlen hc hx]
    rfl

/-- Every message comes from a call that was made. -/
def Known (n : PubSub) : Prop :=
  ∀ queue r, r ∈ n.messages queue → ∃ id, r.isOf id = true ∧ (n.calls id).isSome = true

theorem known_runAll (xs : List PubSubStep) : Known (start.runAll stringmatchlen xs) := by
  induction xs using List.reverseRecOn with
  | nil =>
    intro queue r hr
    cases hr
  | append_singleton xs x ih =>
    rw [runAll_append]
    show Known ((start.runAll stringmatchlen xs).next stringmatchlen x)
    intro queue r hr
    rw [messages_next] at hr
    rcases List.mem_append.mp hr with hr | hr
    · obtain ⟨id, hid, hc⟩ := ih queue r hr
      exact ⟨id, hid, calls_isSome_next stringmatchlen hc x⟩
    · obtain ⟨id, channel, payload, hits, phase, family, item, rfl, hc, -, rfl, -⟩ :=
        mem_delivered hr
      refine ⟨id, by simp [Reply.isOf], calls_isSome_next stringmatchlen ?_ _⟩
      rw [hc]
      rfl

/-! ## One message for each subscription -/

/-- The messages of a call to a queue, for one of its subscriptions. -/
def sent (n : PubSub) (id : Nat) (family : Family) (item : Bytes) (queue : Nat) : List Reply :=
  (n.messages queue).filter fun r => r.isOf id && r.isFor family item

/-- The queue is attached, tracks the item, and is registered under it. -/
structure Listening (n : PubSub) (queue : Nat) (family : Family) (item : Bytes) : Prop where
  attached : (n.queues queue).attached = true
  tracked : item ∈ (n.queues queue).tracked family
  registered : (item, queue) ∈ (n.maps family).contents

/-- A channel is the one that is published on, and a pattern matches it. -/
def Matches (channel : Bytes) : Family → Bytes → Prop
  | .channel, item => item = channel
  | .pattern, item => stringmatchlen item channel = true

def Ahead (item : Bytes) (queue : Nat) (phase : Publishing) : Family → Prop
  | .channel => ChannelAhead queue phase
  | .pattern => PatternAhead item queue phase

def Passed (item : Bytes) (queue : Nat) (phase : Publishing) : Family → Prop
  | .channel => ChannelPassed queue phase
  | .pattern => PatternPassed item queue phase

theorem phase_next {n : PubSub} {channel item : Bytes} {queue : Nat} {phase : Publishing}
    {family : Family} (hs : SortedPhase phase) (hm : (item, queue) ∈ (n.maps family).contents)
    (hmatch : Matches stringmatchlen channel family item) :
    (Ahead item queue phase family →
      if target channel phase = some (family, item, queue) then
        Passed item queue (nextPhase stringmatchlen n channel phase) family
      else Ahead item queue (nextPhase stringmatchlen n channel phase) family) ∧
    (Passed item queue phase family → target channel phase ≠ some (family, item, queue) ∧
      Passed item queue (nextPhase stringmatchlen n channel phase) family) := by
  cases family with
  | channel =>
    have hmatch : item = channel := hmatch
    subst hmatch
    exact channel_next stringmatchlen hs hm
  | pattern => exact pattern_next stringmatchlen hs hm hmatch

/-- The call has come to the subscription and sent its message, or neither. -/
def Progress (n : PubSub) (id : Nat) (channel payload : Bytes) (family : Family) (item : Bytes)
    (queue : Nat) : Prop :=
  ∃ hits phase, n.calls id = some (.publish channel payload hits phase) ∧ SortedPhase phase ∧
    (Ahead item queue phase family ∧ n.sent id family item queue = [] ∨
      Passed item queue phase family ∧
        n.sent id family item queue = [.message id family item channel payload])

/-- What a call sends to a queue that listens, for one subscription. -/
theorem sends_filter {n : PubSub} {id : Nat} {channel payload : Bytes} {phase : Publishing}
    {queue : Nat} {family : Family} {item : Bytes} (hl : Listening n queue family item) :
    ((n.sends id channel payload phase queue).filter fun r => r.isOf id && r.isFor family item) =
      if target channel phase = some (family, item, queue) then
        [.message id family item channel payload] else [] := by
  unfold sends
  cases ht : target channel phase with
  | none => simp
  | some t =>
    obtain ⟨f, i, front⟩ := t
    dsimp only
    by_cases heq : f = family ∧ i = item ∧ front = queue
    · obtain ⟨rfl, rfl, rfl⟩ := heq
      rw [if_pos ⟨rfl, hl.attached, hl.tracked⟩, if_pos rfl]
      simp [Reply.isOf, Reply.isFor]
    · have hne : some (f, i, front) ≠ some (family, item, queue) := fun h => heq (by simpa using h)
      rw [if_neg hne]
      split
      · rename_i hfront
        have hno : ¬ (f = family ∧ i = item) := fun h => heq ⟨h.1, h.2, hfront.1⟩
        rw [List.filter_cons_of_neg]
        · rfl
        · simpa [Reply.isOf, Reply.isFor] using hno
      · rfl

theorem sent_next (n : PubSub) (x : PubSubStep) (id : Nat) (family : Family) (item : Bytes)
    (queue : Nat) : (n.next stringmatchlen x).sent id family item queue =
      n.sent id family item queue ++
        (n.delivered x queue).filter fun r => r.isOf id && r.isFor family item := by
  unfold sent
  rw [messages_next, List.filter_append]

theorem progress_next {n : PubSub} {id : Nat} {channel payload : Bytes} {family : Family}
    {item : Bytes} {queue : Nat} (h : Progress n id channel payload family item queue)
    (hl : Listening n queue family item) (hmatch : Matches stringmatchlen channel family item)
    (x : PubSubStep) :
    Progress (n.next stringmatchlen x) id channel payload family item queue := by
  obtain ⟨hits, phase, hc, hs, h⟩ := h
  by_cases hx : x = .run id
  · subst hx
    obtain ⟨hits', hc'⟩ := calls_publishStep stringmatchlen hc
    have hnext : n.next stringmatchlen (.run id) =
        n.publishStep stringmatchlen id channel payload hits phase := by
      unfold next
      dsimp only
      rw [hc]
    have hsent := sent_next stringmatchlen n (.run id) id family item queue
    have hdel : n.delivered (.run id) queue = n.sends id channel payload phase queue := by
      unfold delivered
      dsimp only
      rw [hc]
    rw [hdel, sends_filter hl] at hsent
    refine ⟨hits', nextPhase stringmatchlen n channel phase, by rw [hnext]; exact hc',
      sortedPhase_next stringmatchlen n channel hs, ?_⟩
    obtain ⟨hahead, hpassed⟩ := phase_next stringmatchlen hs hl.registered hmatch
    rcases h with ⟨h, h0⟩ | ⟨h, h1⟩
    · have h' := hahead h
      rw [h0] at hsent
      split at h'
      · rename_i ht
        rw [if_pos ht] at hsent
        exact .inr ⟨h', hsent⟩
      · rename_i ht
        rw [if_neg ht] at hsent
        exact .inl ⟨h', hsent⟩
    · obtain ⟨ht, h'⟩ := hpassed h
      rw [if_neg ht, h1] at hsent
      exact .inr ⟨h', hsent⟩
  · refine ⟨hits, phase, calls_next stringmatchlen hc hx, hs, ?_⟩
    have hnone : ((n.delivered x queue).filter fun r => r.isOf id && r.isFor family item) = [] := by
      rw [List.filter_eq_nil_iff]
      intro r hr
      obtain ⟨k, _, _, _, _, _, _, hk, -, -, rfl, -⟩ := mem_delivered hr
      have hne : k ≠ id := by
        rintro rfl
        exact hx hk
      simp [Reply.isOf, hne]
    rw [sent_next, hnone, List.append_nil]
    exact h

theorem progress_runAll {n : PubSub} {id : Nat} {channel payload : Bytes} {family : Family}
    {item : Bytes} {queue : Nat} (h : Progress n id channel payload family item queue)
    (hmatch : Matches stringmatchlen channel family item) {xs : List PubSubStep}
    (hl : ∀ before, before <+: xs → Listening (n.runAll stringmatchlen before) queue family item) :
    Progress (n.runAll stringmatchlen xs) id channel payload family item queue := by
  induction xs using List.reverseRecOn with
  | nil => exact h
  | append_singleton xs x ih =>
    rw [runAll_append]
    have hp := ih fun before hb => hl before (hb.trans (List.prefix_append xs [x]))
    exact progress_next stringmatchlen hp (hl xs (List.prefix_append xs [x])) hmatch x

/-! ## Calls one after the other -/

/-- A call that is done stays done, and sends nothing more. -/
theorem done_runAll {n : PubSub} {id : Nat} {channel payload : Bytes} {hits : Nat}
    (h : n.calls id = some (.publish channel payload hits .done)) (xs : List PubSubStep)
    (queue : Nat) :
    (n.runAll stringmatchlen xs).calls id = some (.publish channel payload hits .done) ∧
      ∃ later, (n.runAll stringmatchlen xs).messages queue = n.messages queue ++ later ∧
        ∀ r ∈ later, r.isOf id = false := by
  induction xs using List.reverseRecOn with
  | nil => exact ⟨h, [], (List.append_nil _).symm, by simp⟩
  | append_singleton xs x ih =>
    rw [runAll_append]
    obtain ⟨hc, later, hm, hl⟩ := ih
    refine ⟨?_, later ++ (n.runAll stringmatchlen xs).delivered x queue, ?_, ?_⟩
    · show ((n.runAll stringmatchlen xs).next stringmatchlen x).calls id = _
      by_cases hx : x = .run id
      · subst hx
        unfold next
        dsimp only
        rw [hc]
        exact hc
      · exact calls_next stringmatchlen hc hx
    · show ((n.runAll stringmatchlen xs).next stringmatchlen x).messages queue = _
      rw [messages_next, hm, List.append_assoc]
    · intro r hr
      rcases List.mem_append.mp hr with hr | hr
      · exact hl r hr
      · obtain ⟨k, _, _, _, phase, _, _, rfl, hk, hne, rfl, -⟩ := mem_delivered hr
        have hkid : k ≠ id := by
          rintro rfl
          rw [hc] at hk
          cases hk
          exact hne rfl
        simpa [Reply.isOf] using hkid

/-! ## A subscription that was left -/

/-- The items that a request has still to come to. -/
def Serving.left : Serving → List Bytes
  | .items rest => rest
  | .tracked _ rest => rest
  | .registered _ rest _ => rest

/-- The item that a request has told the tracker about. -/
def Serving.current : Serving → Option Bytes
  | .items _ => none
  | .tracked item _ => some item
  | .registered item _ _ => some item

/-- The tracker of a queue follows the request that is served. -/
structure Follows (s : Standing) : Prop where
  nodup : ∀ family, (s.tracked family).Nodup
  current : ∀ r item, s.request = some r → Serving.current r.serving = some item →
    (item ∈ s.tracked r.family ↔ r.adds = true)

/-- The queue does not track the item, and no request is about to change that. -/
structure Left (s : Standing) (family : Family) (item : Bytes) : Prop where
  untracked : item ∉ s.tracked family
  unasked : ∀ r, s.request = some r → r.family = family → r.adds = true →
    item ∉ Serving.left r.serving

theorem follows_served {s : Standing} (h : Follows s) {r : Request} (hr : s.request = some r) :
    Follows (s.served r) := by
  obtain ⟨hn, hc⟩ := h
  obtain ⟨family, adds, serving⟩ := r
  cases serving with
  | items rest =>
    cases rest with
    | nil =>
      refine ⟨hn, ?_⟩
      intro r' item hr'
      cases hr'
    | cons item rest =>
      constructor
      · intro f
        simp only [Standing.served, replace]
        split
        · split
          · exact (hn family).insert
          · exact (hn family).erase item
        · exact hn f
      · intro r' i hr' hi
        cases hr'
        cases hi
        simp only [Standing.served, mem_replace, if_true]
        cases adds with
        | true => simp
        | false => simp [(hn family).mem_erase_iff]
  | tracked item rest =>
    refine ⟨hn, ?_⟩
    intro r' i hr' hi
    cases hr'
    exact hc { family, adds, serving := .tracked item rest } i hr hi
  | registered item rest result =>
    refine ⟨hn, ?_⟩
    intro r' i hr' hi
    cases hr'
    cases hi

theorem left_served {s : Standing} {family : Family} {item : Bytes} (h : Left s family item)
    {r : Request} (hr : s.request = some r) : Left (s.served r) family item := by
  obtain ⟨hu, ha⟩ := h
  obtain ⟨f, adds, serving⟩ := r
  have hask := ha _ hr
  cases serving with
  | items rest =>
    cases rest with
    | nil =>
      refine ⟨hu, ?_⟩
      intro r' hr'
      cases hr'
    | cons i rest =>
      constructor
      · simp only [Standing.served, mem_replace]
        split
        · rename_i hf
          subst hf
          cases adds with
          | true =>
            have hi := hask rfl rfl
            simp only [Serving.left, List.mem_cons, not_or] at hi
            simp [hu, hi.1]
          | false => exact fun hm => hu (List.mem_of_mem_erase hm)
        · exact hu
      · intro r' hr' hf hadds hm
        cases hr'
        exact hask hf hadds (List.mem_cons_of_mem _ hm)
  | tracked i rest =>
    refine ⟨hu, ?_⟩
    intro r' hr' hf hadds
    cases hr'
    exact hask hf hadds
  | registered i rest result =>
    refine ⟨hu, ?_⟩
    intro r' hr' hf hadds
    cases hr'
    exact hask hf hadds

theorem tracked_setQueue {n : PubSub} {k : Nat} {q : ListenerQueue}
    (hq : q.tracked = (n.queues k).tracked) (queue : Nat) :
    ((n.setQueue k q).queues queue).tracked = (n.queues queue).tracked := by
  rw [setQueue_queues]
  split
  · rename_i hk
    rw [hk]
    exact hq
  · rfl

theorem tracked_publishStep (n : PubSub) (id : Nat) (channel payload : Bytes) (hits : Nat)
    (phase : Publishing) (queue : Nat) :
    ((n.publishStep stringmatchlen id channel payload hits phase).queues queue).tracked =
        (n.queues queue).tracked ∧
      (n.publishStep stringmatchlen id channel payload hits phase).requests = n.requests := by
  cases phase with
  | addMessageIfAttached front rest =>
    exact ⟨tracked_setQueue (addItemIfAttached_frame _ _ _ _ _ _).2.2.1 queue, rfl⟩
  | addPatternMessageIfAttached pattern patterns front rest =>
    exact ⟨tracked_setQueue (addItemIfAttached_frame _ _ _ _ _ _).2.2.1 queue, rfl⟩
  | _ => exact ⟨rfl, rfl⟩

theorem tracked_purgeStep (n : PubSub) (id : Nat) (resp : Bytes) (phase : Purging) (queue : Nat) :
    ((n.purgeStep id resp phase).queues queue).tracked = (n.queues queue).tracked ∧
      (n.purgeStep id resp phase).requests = n.requests := by
  cases phase with
  | appendIfAttached family key keys front rest =>
    refine ⟨tracked_setQueue ?_ queue, rfl⟩
    unfold ListenerQueue.appendIfAttached
    split <;> rfl
  | findMatching family key keys =>
    unfold purgeStep
    dsimp only
    split <;> exact ⟨rfl, rfl⟩
  | next family key keys front rest =>
    unfold purgeStep
    dsimp only
    split <;> exact ⟨rfl, rfl⟩
  | _ => exact ⟨rfl, rfl⟩

/-- Only a request of its connection changes what a queue tracks. -/
theorem tracked_next (n : PubSub) (x : PubSubStep) (queue : Nat) :
    (((n.next stringmatchlen x).queues queue).tracked = (n.queues queue).tracked ∧
      ((n.next stringmatchlen x).requests queue = n.requests queue ∨
        ∃ family adds items, x = .request queue family adds items ∧
          (n.next stringmatchlen x).requests queue =
            some { family, adds, serving := .items items })) ∨
    ∃ r, n.requests queue = some r ∧
      (n.next stringmatchlen x).standing queue = (n.standing queue).served r := by
  cases x with
  | request k family adds items =>
    left
    unfold next
    dsimp only
    split
    · split
      · refine ⟨tracked_setQueue ?_ queue, .inl rfl⟩
        rfl
      · refine ⟨rfl, ?_⟩
        rw [setRequest_requests]
        split
        · rename_i hk
          exact .inr ⟨family, adds, items, by rw [hk], rfl⟩
        · exact .inl rfl
    · exact ⟨rfl, .inl rfl⟩
  | serve k =>
    unfold next
    dsimp only
    cases hr : n.requests k with
    | none => exact .inl ⟨rfl, .inl rfl⟩
    | some r =>
      by_cases hk : queue = k
      · subst hk
        exact .inr ⟨r, hr, standing_serve n queue r⟩
      · have hs := standing_serve_other n hk r
        exact .inl ⟨congrArg Standing.tracked hs, .inl (congrArg Standing.request hs)⟩
  | activatePushTypes k =>
    left
    refine ⟨tracked_setQueue ?_ queue, .inl rfl⟩
    rfl
  | detachConnection k =>
    left
    unfold next
    dsimp only
    split
    · refine ⟨tracked_setQueue ?_ queue, .inl rfl⟩
      rfl
    · exact ⟨rfl, .inl rfl⟩
  | publish id channel payload =>
    left
    unfold next
    dsimp only
    split <;> exact ⟨rfl, .inl rfl⟩
  | purgeListeners id resp =>
    left
    unfold next
    dsimp only
    split <;> exact ⟨rfl, .inl rfl⟩
  | run id =>
    left
    unfold next
    dsimp only
    split
    · have ht := tracked_publishStep stringmatchlen n id
      exact ⟨(ht _ _ _ _ queue).1, .inl (congrFun (ht _ _ _ _ queue).2 queue)⟩
    · have ht := tracked_purgeStep n id
      exact ⟨(ht _ _ queue).1, .inl (congrFun (ht _ _ queue).2 queue)⟩
    · exact ⟨rfl, .inl rfl⟩

theorem follows_runAll (xs : List PubSubStep) (queue : Nat) :
    Follows ((start.runAll stringmatchlen xs).standing queue) := by
  induction xs using List.reverseRecOn with
  | nil =>
    refine ⟨fun _ => List.nodup_nil, ?_⟩
    intro r item hr
    cases hr
  | append_singleton xs x ih =>
    rw [runAll_append]
    show Follows (((start.runAll stringmatchlen xs).next stringmatchlen x).standing queue)
    rcases tracked_next stringmatchlen (start.runAll stringmatchlen xs) x queue with
      ⟨ht, hr | ⟨family, adds, items, -, hr⟩⟩ | ⟨r, hr, hs⟩
    · refine ⟨fun family => ?_, fun r item hr' hi => ?_⟩
      · simp only [standing, ht]
        exact ih.nodup family
      · simp only [standing, ht, hr] at hr' ⊢
        exact ih.current r item hr' hi
    · refine ⟨fun family => ?_, fun r item hr' hi => ?_⟩
      · simp only [standing, ht]
        exact ih.nodup family
      · simp only [standing, hr] at hr'
        cases hr'
        cases hi
    · rw [hs]
      exact follows_served ih hr

/-- Once a queue has left an item and asks for it no more, no message for it comes. -/
theorem left_runAll {n : PubSub} {queue : Nat} {family : Family} {item : Bytes}
    (h : Left (n.standing queue) family item) {xs : List PubSubStep}
    (hx : ∀ items, PubSubStep.request queue family true items ∈ xs → item ∉ items) :
    Left ((n.runAll stringmatchlen xs).standing queue) family item ∧
      ((n.runAll stringmatchlen xs).messages queue).filter (Reply.isFor family item) =
        (n.messages queue).filter (Reply.isFor family item) := by
  induction xs using List.reverseRecOn with
  | nil => exact ⟨h, rfl⟩
  | append_singleton xs x ih =>
    rw [runAll_append]
    obtain ⟨hl, hm⟩ := ih fun items hi => hx items (List.mem_append_left [x] hi)
    generalize n.runAll stringmatchlen xs = m at hl hm
    show Left ((m.next stringmatchlen x).standing queue) family item ∧
      ((m.next stringmatchlen x).messages queue).filter (Reply.isFor family item) = _
    constructor
    · rcases tracked_next stringmatchlen m x queue with
        ⟨ht, hr | ⟨f, adds, items, rfl, hr⟩⟩ | ⟨r, hr, hs⟩
      · refine ⟨?_, fun r hr' => ?_⟩
        · simp only [standing, ht]
          exact hl.untracked
        · simp only [standing, hr] at hr'
          exact hl.unasked r hr'
      · refine ⟨?_, fun r hr' hf hadds => ?_⟩
        · simp only [standing, ht]
          exact hl.untracked
        · simp only [standing, hr] at hr'
          cases hr'
          have hf : f = family := hf
          have hadds : adds = true := hadds
          subst hf hadds
          exact hx items (List.mem_append_right xs List.mem_cons_self)
      · rw [hs]
        exact left_served hl hr
    · rw [messages_next, List.filter_append, hm]
      have hnone : (m.delivered x queue).filter (Reply.isFor family item) = [] := by
        rw [List.filter_eq_nil_iff]
        intro r hr hfor
        obtain ⟨_, _, _, _, _, f, i, -, -, -, rfl, hi⟩ := mem_delivered hr
        simp only [Reply.isFor, Bool.and_eq_true, decide_eq_true_eq] at hfor
        obtain ⟨rfl, rfl⟩ := hfor
        exact hl.untracked hi
      rw [hnone, List.append_nil]

/-! ## The law -/

/-- The one pattern of the run below matches its one channel. -/
def starMatch (pattern channel : Bytes) : Bool :=
  pattern = ascii "n*" && channel = ascii "news"

/-- A connection subscribes to a channel and to a pattern. -/
def twoSubscriptions : List PubSubStep :=
  [PubSubStep.request 1 .channel true [ascii "news"]] ++ List.replicate 4 (PubSubStep.serve 1) ++
    [PubSubStep.request 1 .pattern true [ascii "n*"]] ++ List.replicate 4 (PubSubStep.serve 1)

end PubSub

end quarkdb
