-- The count of a queue's subscriptions, which every reply to a request reports:
-- it is the number of entries that the publisher has for the queue, and of the
-- items that the queue tracks, as long as nobody purged an entry of the queue.
import QuarkDB.Publisher

namespace quarkdb
namespace PubSub

variable (stringmatchlen : Bytes → Bytes → Bool)

/-! ## What a publisher has for a queue -/

/-- The channels, or the patterns, under which the queue is registered. -/
def itemsOf (n : PubSub) (queue : Nat) (family : Family) : List Bytes :=
  ((n.maps family).contents.filter fun e => e.2 = queue).map Prod.fst

/-- The entries that are registered for a queue. -/
def entries (n : PubSub) (queue : Nat) : Nat :=
  (n.itemsOf queue .channel).length + (n.itemsOf queue .pattern).length

/-- The channels and the patterns that the queue tracks. -/
def trackedItems (n : PubSub) (queue : Nat) : Nat :=
  ((n.queues queue).tracked .channel).length + ((n.queues queue).tracked .pattern).length

/-- The step of a purge that erases an entry of a queue. -/
def Purges (n : PubSub) (x : PubSubStep) (queue : Nat) : Prop :=
  ∃ id resp family key keys rest, x = .run id ∧
    n.calls id = some (.purgeListeners resp (.erase family key keys queue rest)) ∧
    key ∈ n.itemsOf queue family

theorem mem_itemsOf {n : PubSub} {queue : Nat} {family : Family} {item : Bytes} :
    item ∈ n.itemsOf queue family ↔ (item, queue) ∈ (n.maps family).contents := by
  simp [itemsOf]

theorem nodup_itemsOf (n : PubSub) (queue : Nat) (family : Family) :
    (n.itemsOf queue family).Nodup := by
  apply List.Nodup.map_on _ ((n.maps family).nodup.filter _)
  rintro ⟨k, v⟩ hx ⟨k', v'⟩ hy hk
  have hv := (List.mem_filter.mp hx).2
  have hv' := (List.mem_filter.mp hy).2
  simp only [decide_eq_true_eq] at hk hv hv'
  rw [hk, hv, hv']

/-- Two lists of items without duplicates that hold the same are of one length. -/
theorem length_itemsOf {n : PubSub} {queue : Nat} {family : Family} {items : List Bytes}
    (hn : items.Nodup) (h : ∀ item, item ∈ items ↔ item ∈ n.itemsOf queue family) :
    (n.itemsOf queue family).length = items.length :=
  ((List.perm_ext_iff_of_nodup hn (nodup_itemsOf n queue family)).mpr h).length_eq.symm

theorem itemsOf_setMap (n : PubSub) (f : Family) (m : ThreadSafeMultiMap Bytes Nat) (queue : Nat)
    (family : Family) : (n.setMap f m).itemsOf queue family =
      if family = f then (m.contents.filter fun e => e.2 = queue).map Prod.fst
      else n.itemsOf queue family := by
  unfold itemsOf
  rw [setMap_maps]
  split <;> rfl

theorem itemsOf_insert (n : PubSub) (queue : Nat) (family : Family) (item : Bytes) :
    ((((n.maps family).insert item queue).2.contents.filter fun e => e.2 = queue).map Prod.fst) =
      if item ∈ n.itemsOf queue family then n.itemsOf queue family
      else item :: n.itemsOf queue family := by
  unfold ThreadSafeMultiMap.insert
  by_cases h : item ∈ n.itemsOf queue family
  · rw [dif_pos (mem_itemsOf.mp h), if_pos h]
    rfl
  · rw [dif_neg (fun hc => h (mem_itemsOf.mpr hc)), if_neg h]
    simp [itemsOf]

theorem itemsOf_insert_other (n : PubSub) {queue k : Nat} (hk : k ≠ queue) (family : Family)
    (item : Bytes) :
    ((((n.maps family).insert item k).2.contents.filter fun e => e.2 = queue).map Prod.fst) =
      n.itemsOf queue family := by
  unfold ThreadSafeMultiMap.insert
  split
  · rfl
  · simp [itemsOf, hk]

theorem itemsOf_erase (n : PubSub) (queue : Nat) (family : Family) (item : Bytes) :
    ((((n.maps family).erase item queue).2.contents.filter fun e => e.2 = queue).map Prod.fst) =
      (n.itemsOf queue family).erase item := by
  rw [(nodup_itemsOf n queue family).erase_eq_filter, ThreadSafeMultiMap.contents_erase]
  unfold itemsOf
  rw [List.filter_map, List.filter_filter, List.filter_filter]
  congr 1
  apply List.filter_congr
  rintro ⟨k, v⟩ -
  by_cases hv : v = queue <;> by_cases hk : k = item <;> simp [hv, hk]

theorem itemsOf_erase_other (n : PubSub) {queue k : Nat} (hk : k ≠ queue) (family : Family)
    (item : Bytes) :
    ((((n.maps family).erase item k).2.contents.filter fun e => e.2 = queue).map Prod.fst) =
      n.itemsOf queue family := by
  rw [ThreadSafeMultiMap.contents_erase, List.filter_filter]
  unfold itemsOf
  congr 1
  apply List.filter_congr
  rintro ⟨k', v⟩ -
  by_cases hv : v = queue
  · simp [hv, Ne.symm hk]
  · simp [hv]

/-! ## What one queue sees -/

/-- All that counting the subscriptions of one queue depends on. -/
@[ext] structure Standing where
  attached : Bool
  subscriptions : Nat
  tracked : Family → List Bytes
  items : Family → List Bytes
  request : Option Request

def standing (n : PubSub) (queue : Nat) : Standing :=
  { attached := (n.queues queue).attached, subscriptions := (n.queues queue).subscriptions
    tracked := (n.queues queue).tracked, items := n.itemsOf queue, request := n.requests queue }

/-- One of the two lists is replaced. -/
def replace (lists : Family → List Bytes) (family : Family) (items : List Bytes) :
    Family → List Bytes := fun f => if f = family then items else lists f

theorem replace_self (lists : Family → List Bytes) (family : Family) :
    replace lists family (lists family) = lists := by
  funext f
  unfold replace
  split
  · rename_i h
    rw [h]
  · rfl

/-- What a step of a request is to the queue that it is served for. -/
def Standing.served (s : Standing) (r : Request) : Standing :=
  match r.serving with
  | .items [] => { s with request := none }
  | .items (item :: rest) =>
    { s with
      tracked := replace s.tracked r.family
        (if r.adds then (s.tracked r.family).insert item else (s.tracked r.family).erase item)
      request := some { r with serving := .tracked item rest } }
  | .tracked item rest =>
    { s with
      items := replace s.items r.family
        (if r.adds then if item ∈ s.items r.family then s.items r.family
            else item :: s.items r.family
          else (s.items r.family).erase item)
      request := some { r with
        serving := .registered item rest (decide (item ∈ s.items r.family) != r.adds) } }
  | .registered _ rest result =>
    { s with
      subscriptions :=
        if r.adds then s.subscriptions + result.toNat else s.subscriptions - result.toNat
      request := some { r with serving := .items rest } }

theorem standing_setCall (n : PubSub) (id : Nat) (call : PubSubCall) (queue : Nat) :
    (n.setCall id call).standing queue = n.standing queue := rfl

theorem standing_setQueue (n : PubSub) (k queue : Nat) {q : ListenerQueue}
    (ha : q.attached = (n.queues k).attached) (hs : q.subscriptions = (n.queues k).subscriptions)
    (ht : q.tracked = (n.queues k).tracked) :
    (n.setQueue k q).standing queue = n.standing queue := by
  by_cases hk : queue = k
  · subst hk
    ext1 <;> simp [standing, ha, hs, ht]
    rfl
  · ext1 <;> simp [standing, hk]
    rfl

theorem standing_setQueue_other (n : PubSub) {k queue : Nat} (hk : queue ≠ k) (q : ListenerQueue) :
    (n.setQueue k q).standing queue = n.standing queue := by
  ext1 <;> simp [standing, hk]
  rfl

theorem standing_setRequest_other (n : PubSub) {k queue : Nat} (hk : queue ≠ k)
    (r : Option Request) : (n.setRequest k r).standing queue = n.standing queue := by
  ext1 <;> simp [standing, hk]
  rfl

theorem standing_setRequest (n : PubSub) (queue : Nat) (r : Option Request) :
    (n.setRequest queue r).standing queue = { n.standing queue with request := r } := by
  ext1 <;> simp [standing]
  rfl

theorem standing_setMap (n : PubSub) (family : Family) (m : ThreadSafeMultiMap Bytes Nat)
    (queue : Nat) : (n.setMap family m).standing queue = { n.standing queue with
      items := replace (n.itemsOf queue) family
        ((m.contents.filter fun e => e.2 = queue).map Prod.fst) } := by
  ext1
  · rfl
  · rfl
  · rfl
  · funext f
    exact itemsOf_setMap n family m queue f
  · rfl

theorem standing_erase_other (n : PubSub) {k queue : Nat} (hk : k ≠ queue) (family : Family)
    (item : Bytes) : (n.setMap family ((n.maps family).erase item k).2).standing queue =
      n.standing queue := by
  rw [standing_setMap, itemsOf_erase_other n hk, replace_self]
  rfl

theorem standing_serve_other (n : PubSub) {k queue : Nat} (hk : queue ≠ k) (r : Request) :
    (n.serve k r).standing queue = n.standing queue := by
  unfold serve
  dsimp only
  split
  · rw [standing_setRequest_other _ hk, standing_setQueue_other _ hk]
  · rw [standing_setRequest_other _ hk, standing_setQueue_other _ hk]
  · rw [standing_setRequest_other _ hk, standing_setMap]
    split
    · rw [itemsOf_insert_other n (Ne.symm hk), replace_self]
      rfl
    · rw [itemsOf_erase_other n (Ne.symm hk), replace_self]
      rfl
  · rw [standing_setRequest_other _ hk, standing_setQueue_other _ hk]

/-- A step of a request does to its queue what `served` says. -/
theorem standing_serve (n : PubSub) (queue : Nat) (r : Request) :
    (n.serve queue r).standing queue = (n.standing queue).served r := by
  obtain ⟨family, adds, serving⟩ := r
  cases serving with
  | items rest =>
    cases rest with
    | nil =>
      simp only [serve, Standing.served]
      rw [standing_setRequest, standing_setQueue]
      · split <;> rfl
      · split <;> rfl
      · split <;> rfl
    | cons item rest =>
      simp only [serve, Standing.served]
      rw [standing_setRequest]
      cases adds <;> ext1 <;> simp [standing, ListenerQueue.add, ListenerQueue.remove,
        ListenerQueue.setTracked] <;> rfl
  | tracked item rest =>
    simp only [serve, Standing.served]
    rw [standing_setRequest, standing_setMap]
    cases adds with
    | false =>
      simp only [Bool.false_eq_true, if_false, itemsOf_erase]
      have hresult : ((n.maps family).erase item queue).1 =
          (decide (item ∈ n.itemsOf queue family) != false) := by
        rw [Bool.eq_iff_iff]
        simp [ThreadSafeMultiMap.erase, mem_itemsOf]
      rw [hresult]
      rfl
    | true =>
      simp only [if_true, itemsOf_insert]
      have hresult : ((n.maps family).insert item queue).1 =
          (decide (item ∈ n.itemsOf queue family) != true) := by
        rw [Bool.eq_iff_iff, ThreadSafeMultiMap.insert_fst, ← mem_itemsOf]
        simp
      rw [hresult]
      rfl
  | registered item rest result =>
    simp only [serve, Standing.served]
    rw [standing_setRequest]
    ext1 <;> simp [standing, ListenerQueue.append]
    rfl

/-! ## What a queue sees of the calls -/

/-- The queue whose entry a call of `publish` is about to erase. -/
def erasing : Publishing → Option Nat
  | .eraseChannel front _ => some front
  | .erasePattern _ _ front _ => some front
  | _ => none

/-- What `publish` erases belongs to a queue that is detached. -/
def Gone (n : PubSub) : Prop :=
  ∀ id channel payload hits phase queue,
    n.calls id = some (.publish channel payload hits phase) → erasing phase = some queue →
      (n.queues queue).attached = false

theorem addItemIfAttached_frame (q : ListenerQueue) (call : Nat) (family : Family)
    (item channel payload : Bytes) :
    (q.addItemIfAttached call family item channel payload).2.attached = q.attached ∧
      (q.addItemIfAttached call family item channel payload).2.subscriptions = q.subscriptions ∧
      (q.addItemIfAttached call family item channel payload).2.tracked = q.tracked ∧
      (q.addItemIfAttached call family item channel payload).1 = q.attached := by
  unfold ListenerQueue.addItemIfAttached
  cases ha : q.attached with
  | false => exact ⟨ha, rfl, rfl, rfl⟩
  | true =>
    simp only [Bool.not_true, Bool.false_eq_true, if_false]
    split
    · exact ⟨ha, rfl, rfl, rfl⟩
    · exact ⟨ha, rfl, rfl, rfl⟩

theorem standing_publishStep {n : PubSub} {queue : Nat} {phase : Publishing}
    (he : ∀ front, erasing phase = some front → front ≠ queue) (id : Nat)
    (channel payload : Bytes) (hits : Nat) :
    (n.publishStep stringmatchlen id channel payload hits phase).standing queue =
      n.standing queue := by
  cases phase with
  | findMatching => rfl
  | addMessageIfAttached front rest =>
    have hf := addItemIfAttached_frame (n.queues front) id .channel channel channel payload
    exact standing_setQueue n front queue hf.1 hf.2.1 hf.2.2.1
  | eraseChannel front rest => exact standing_erase_other n (he front rfl) .channel channel
  | nextChannel front rest => rfl
  | find => rfl
  | findPattern pattern patterns => rfl
  | addPatternMessageIfAttached pattern patterns front rest =>
    have hf := addItemIfAttached_frame (n.queues front) id .pattern pattern channel payload
    exact standing_setQueue n front queue hf.1 hf.2.1 hf.2.2.1
  | erasePattern pattern patterns front rest =>
    exact standing_erase_other n (he front rfl) .pattern pattern
  | nextMatch pattern patterns front rest => rfl
  | nextPattern pattern patterns => rfl
  | done => rfl

/-- A purge changes nothing for a queue, or it erases an entry of it. -/
theorem standing_purgeStep (n : PubSub) (queue id : Nat) (resp : Bytes) (phase : Purging) :
    (n.purgeStep id resp phase).standing queue = n.standing queue ∧
        (∀ family key keys rest, phase = .erase family key keys queue rest →
          key ∉ n.itemsOf queue family) ∨
      ∃ family key keys rest, phase = .erase family key keys queue rest ∧
        key ∈ n.itemsOf queue family ∧
        (n.purgeStep id resp phase).standing queue = { n.standing queue with
          items := replace (n.itemsOf queue) family ((n.itemsOf queue family).erase key) } := by
  cases phase with
  | getFullIterator family => exact .inl ⟨rfl, by simp⟩
  | findMatching family key keys =>
    refine .inl ⟨?_, by simp⟩
    unfold purgeStep
    dsimp only
    split <;> rfl
  | appendIfAttached family key keys front rest =>
    refine .inl ⟨?_, by simp⟩
    apply standing_setQueue n front queue <;>
      · unfold ListenerQueue.appendIfAttached
        split <;> rfl
  | erase family key keys front rest =>
    by_cases hq : front = queue
    · subst hq
      have hs : (n.purgeStep id resp (.erase family key keys front rest)).standing front =
          { n.standing front with
            items := replace (n.itemsOf front) family ((n.itemsOf front family).erase key) } := by
        unfold purgeStep
        rw [standing_setCall, standing_setMap, itemsOf_erase]
      by_cases hk : key ∈ n.itemsOf front family
      · exact .inr ⟨family, key, keys, rest, rfl, hk, hs⟩
      · refine .inl ⟨?_, ?_⟩
        · rw [hs, List.erase_of_not_mem hk, replace_self]
          rfl
        · intro f k ks r he
          cases he
          exact hk
    · refine .inl ⟨standing_erase_other n hq family key, ?_⟩
      intro f k ks r he
      cases he
      exact absurd rfl hq
  | next family key keys front rest =>
    refine .inl ⟨?_, by simp⟩
    unfold purgeStep
    dsimp only
    split <;> rfl
  | nextKey family key keys => exact .inl ⟨rfl, by simp⟩
  | done => exact .inl ⟨rfl, by simp⟩

/-- What a step does to an attached queue, in five cases. -/
theorem standing_next {n : PubSub} (hg : Gone n) {queue : Nat}
    (ha : (n.queues queue).attached = true) (x : PubSubStep) :
    ((n.next stringmatchlen x).standing queue = n.standing queue ∧ ¬ Purges n x queue) ∨
    (((n.next stringmatchlen x).queues queue).attached = false ∧ ¬ Purges n x queue) ∨
    (∃ family adds items, n.requests queue = none ∧ ¬ Purges n x queue ∧
      (n.next stringmatchlen x).standing queue =
        { n.standing queue with request := some { family, adds, serving := .items items } }) ∨
    (∃ r, n.requests queue = some r ∧ ¬ Purges n x queue ∧
      (n.next stringmatchlen x).standing queue = (n.standing queue).served r) ∨
    ∃ family key, Purges n x queue ∧ key ∈ n.itemsOf queue family ∧
      (n.next stringmatchlen x).standing queue = { n.standing queue with
        items := replace (n.itemsOf queue) family ((n.itemsOf queue family).erase key) } := by
  have hrun : (∀ id, x ≠ .run id) → ¬ Purges n x queue := by
    rintro hx ⟨id, -, -, -, -, -, h, -⟩
    exact hx id h
  cases x with
  | request k family adds items =>
    have hp := hrun (by simp)
    unfold next
    dsimp only
    split
    · rename_i hfree
      split
      · exact .inl ⟨standing_setQueue n k queue rfl rfl rfl, hp⟩
      · by_cases hk : queue = k
        · subst hk
          exact .inr (.inr (.inl ⟨family, adds, items, hfree.2, hp, standing_setRequest n _ _⟩))
        · exact .inl ⟨standing_setRequest_other n hk _, hp⟩
    · exact .inl ⟨rfl, hp⟩
  | serve k =>
    have hp := hrun (by simp)
    unfold next
    dsimp only
    cases hr : n.requests k with
    | none => exact .inl ⟨rfl, hp⟩
    | some r =>
      by_cases hk : queue = k
      · subst hk
        exact .inr (.inr (.inr (.inl ⟨r, hr, hp, standing_serve n queue r⟩)))
      · exact .inl ⟨standing_serve_other n hk r, hp⟩
  | activatePushTypes k =>
    exact .inl ⟨standing_setQueue n k queue rfl rfl rfl, hrun (by simp)⟩
  | detachConnection k =>
    have hp := hrun (by simp)
    unfold next
    dsimp only
    split
    · by_cases hk : queue = k
      · exact .inr (.inl ⟨by simp [hk], hp⟩)
      · exact .inl ⟨standing_setQueue_other n hk _, hp⟩
    · exact .inl ⟨rfl, hp⟩
  | publish id channel payload =>
    refine .inl ⟨?_, hrun (by simp)⟩
    unfold next
    dsimp only
    split <;> rfl
  | purgeListeners id resp =>
    refine .inl ⟨?_, hrun (by simp)⟩
    unfold next
    dsimp only
    split <;> rfl
  | run id =>
    unfold next
    dsimp only
    cases hc : n.calls id with
    | none =>
      refine .inl ⟨rfl, ?_⟩
      rintro ⟨id', resp, family, key, keys, rest, h, hcall, -⟩
      cases h
      rw [hc] at hcall
      cases hcall
    | some call =>
      cases call with
      | publish channel payload hits phase =>
        refine .inl ⟨standing_publishStep stringmatchlen ?_ id channel payload hits, ?_⟩
        · intro front he hf
          have hgone := hg id channel payload hits phase front hc he
          rw [hf, ha] at hgone
          cases hgone
        · rintro ⟨id', resp, family, key, keys, rest, h, hcall, -⟩
          cases h
          rw [hc] at hcall
          cases hcall
      | purgeListeners resp phase =>
        rcases standing_purgeStep n queue id resp phase with
          ⟨hs, hno⟩ | ⟨family, key, keys, rest, hphase, hk, hs⟩
        · refine .inl ⟨hs, ?_⟩
          rintro ⟨id', resp', family, key, keys, rest, h, hcall, hk⟩
          cases h
          rw [hc] at hcall
          cases hcall
          exact hno family key keys rest rfl hk
        · refine .inr (.inr (.inr (.inr ⟨family, key, ?_, hk, hs⟩)))
          exact ⟨id, resp, family, key, keys, rest, rfl, by rw [hc, hphase], hk⟩

/-! ## A queue that is gone stays gone -/

theorem erasing_channelLoop (s : Stage Nat) : erasing (channelLoop s) = none := by
  cases s <;> rfl

theorem erasing_patternLoop (pattern : Bytes) (patterns : List Bytes) (s : Stage Nat) :
    erasing (patternLoop pattern patterns s) = none := by
  cases s <;> rfl

theorem erasing_advanceUntilMatch (channel : Bytes) (s : Stage Bytes) :
    erasing (advanceUntilMatch stringmatchlen channel s) = none := by
  cases s with
  | invalid => rfl
  | valid pattern patterns =>
    unfold advanceUntilMatch
    dsimp only
    split <;> rfl

/-- The call that a step of `publish` leaves is about to erase an entry only of a
queue that was found detached. -/
theorem publishStep_erasing {n : PubSub} {id : Nat} {channel payload : Bytes} {hits : Nat}
    {phase : Publishing} (hc : n.calls id = some (.publish channel payload hits phase)) :
    ∃ hits' phase', (n.publishStep stringmatchlen id channel payload hits phase).calls id =
        some (.publish channel payload hits' phase') ∧
      (phase' = phase ∨ erasing phase' = none ∨
        ∃ front, erasing phase' = some front ∧ (n.queues front).attached = false) := by
  have hnew : ∀ (m : PubSub) hits' phase',
      (m.setCall id (.publish channel payload hits' phase')).calls id =
        some (.publish channel payload hits' phase') := by
    intro m hits' phase'
    simp
  cases phase with
  | findMatching => exact ⟨_, _, hnew _ _ _, .inr (.inl (erasing_channelLoop _))⟩
  | addMessageIfAttached front rest =>
    have hf : ((n.queues front).addMessageIfAttached id channel payload).1 =
        (n.queues front).attached := (addItemIfAttached_frame _ _ _ _ _ _).2.2.2
    refine ⟨_, if ((n.queues front).addMessageIfAttached id channel payload).1 then
      .nextChannel front rest else .eraseChannel front rest, hnew _ _ _, ?_⟩
    rw [hf]
    cases ha : (n.queues front).attached with
    | false => exact .inr (.inr ⟨front, rfl, ha⟩)
    | true => exact .inr (.inl rfl)
  | eraseChannel front rest => exact ⟨_, _, hnew _ _ _, .inr (.inl rfl)⟩
  | nextChannel front rest => exact ⟨_, _, hnew _ _ _, .inr (.inl (erasing_channelLoop _))⟩
  | find => exact ⟨_, _, hnew _ _ _, .inr (.inl (erasing_advanceUntilMatch _ _ _))⟩
  | findPattern pattern patterns =>
    exact ⟨_, _, hnew _ _ _, .inr (.inl (erasing_patternLoop _ _ _))⟩
  | addPatternMessageIfAttached pattern patterns front rest =>
    have hf : ((n.queues front).addPatternMessageIfAttached id pattern channel payload).1 =
        (n.queues front).attached := (addItemIfAttached_frame _ _ _ _ _ _).2.2.2
    refine ⟨_, if ((n.queues front).addPatternMessageIfAttached id pattern channel payload).1 then
      .nextMatch pattern patterns front rest else .erasePattern pattern patterns front rest,
      hnew _ _ _, ?_⟩
    rw [hf]
    cases ha : (n.queues front).attached with
    | false => exact .inr (.inr ⟨front, rfl, ha⟩)
    | true => exact .inr (.inl rfl)
  | erasePattern pattern patterns front rest => exact ⟨_, _, hnew _ _ _, .inr (.inl rfl)⟩
  | nextMatch pattern patterns front rest =>
    exact ⟨_, _, hnew _ _ _, .inr (.inl (erasing_patternLoop _ _ _))⟩
  | nextPattern pattern patterns =>
    exact ⟨_, _, hnew _ _ _, .inr (.inl (erasing_advanceUntilMatch _ _ _))⟩
  | done => exact ⟨hits, .done, hc, .inl rfl⟩

theorem attached_setQueue {n : PubSub} {k : Nat} {q : ListenerQueue}
    (hq : q.attached = (n.queues k).attached) (queue : Nat) :
    ((n.setQueue k q).queues queue).attached = (n.queues queue).attached := by
  rw [setQueue_queues]
  split
  · rename_i hk
    rw [hk]
    exact hq
  · rfl

theorem attached_serve (n : PubSub) (k : Nat) (r : Request) (queue : Nat) :
    ((n.serve k r).queues queue).attached = (n.queues queue).attached := by
  unfold serve
  dsimp only
  split
  · exact attached_setQueue (by split <;> rfl) queue
  · exact attached_setQueue (by split <;> rfl) queue
  · rfl
  · apply attached_setQueue _ queue
    rfl

theorem attached_publishStep (n : PubSub) (id : Nat) (channel payload : Bytes) (hits : Nat)
    (phase : Publishing) (queue : Nat) :
    ((n.publishStep stringmatchlen id channel payload hits phase).queues queue).attached =
      (n.queues queue).attached := by
  cases phase with
  | addMessageIfAttached front rest =>
    exact attached_setQueue (addItemIfAttached_frame _ _ _ _ _ _).1 queue
  | addPatternMessageIfAttached pattern patterns front rest =>
    exact attached_setQueue (addItemIfAttached_frame _ _ _ _ _ _).1 queue
  | _ => rfl

theorem attached_purgeStep (n : PubSub) (id : Nat) (resp : Bytes) (phase : Purging) (queue : Nat) :
    ((n.purgeStep id resp phase).queues queue).attached = (n.queues queue).attached := by
  cases phase with
  | appendIfAttached family key keys front rest =>
    apply attached_setQueue _ queue
    unfold ListenerQueue.appendIfAttached
    split <;> rfl
  | findMatching family key keys =>
    unfold purgeStep
    dsimp only
    split <;> rfl
  | next family key keys front rest =>
    unfold purgeStep
    dsimp only
    split <;> rfl
  | _ => rfl

theorem attached_next (n : PubSub) (x : PubSubStep) (queue : Nat) :
    ((n.next stringmatchlen x).queues queue).attached = (n.queues queue).attached ∨
      ((n.next stringmatchlen x).queues queue).attached = false := by
  cases x with
  | request k family adds items =>
    left
    unfold next
    dsimp only
    split
    · split
      · apply attached_setQueue _ queue
        rfl
      · rfl
    · rfl
  | serve k =>
    left
    unfold next
    dsimp only
    split
    · exact attached_serve n k _ queue
    · rfl
  | activatePushTypes k =>
    left
    apply attached_setQueue _ queue
    rfl
  | detachConnection k =>
    unfold next
    dsimp only
    split
    · rw [setQueue_queues]
      split
      · exact .inr rfl
      · exact .inl rfl
    · exact .inl rfl
  | publish id channel payload =>
    left
    unfold next
    dsimp only
    split <;> rfl
  | purgeListeners id resp =>
    left
    unfold next
    dsimp only
    split <;> rfl
  | run id =>
    left
    unfold next
    dsimp only
    split
    · exact attached_publishStep stringmatchlen n id _ _ _ _ queue
    · exact attached_purgeStep n id _ _ queue
    · rfl

/-- A step of one call leaves the other calls alone. -/
theorem calls_publishStep_other (n : PubSub) {id k : Nat} (hk : k ≠ id) (channel payload : Bytes)
    (hits : Nat) (phase : Publishing) :
    (n.publishStep stringmatchlen id channel payload hits phase).calls k = n.calls k := by
  have hset : ∀ (m : PubSub) call, m.calls k = n.calls k →
      (m.setCall id call).calls k = n.calls k := by
    intro m call hm
    rw [setCall_calls, if_neg hk, hm]
  cases phase with
  | done => rfl
  | _ => exact hset _ _ rfl

theorem calls_purgeStep (n : PubSub) (id : Nat) (resp : Bytes) (phase : Purging) (k : Nat) :
    (n.purgeStep id resp phase).calls k = n.calls k ∨
      ∃ phase', (n.purgeStep id resp phase).calls k = some (.purgeListeners resp phase') := by
  have hset : ∀ (m : PubSub) phase', m.calls k = n.calls k →
      (m.setCall id (.purgeListeners resp phase')).calls k = n.calls k ∨
        ∃ phase'', (m.setCall id (.purgeListeners resp phase')).calls k =
          some (.purgeListeners resp phase'') := by
    intro m phase' hm
    rw [setCall_calls]
    split
    · exact .inr ⟨phase', rfl⟩
    · exact .inl hm
  cases phase with
  | done => exact .inl rfl
  | findMatching family key keys =>
    unfold purgeStep
    dsimp only
    split
    · exact .inl rfl
    · exact hset _ _ rfl
  | next family key keys front rest =>
    unfold purgeStep
    dsimp only
    split
    · exact hset _ _ rfl
    · exact hset _ _ rfl
  | _ => exact hset _ _ rfl

theorem calls_serve (n : PubSub) (k : Nat) (r : Request) : (n.serve k r).calls = n.calls := by
  unfold serve
  dsimp only
  split <;> rfl

/-- The call of `publish` that stands after a step stood before it, or it is about to
erase nothing, or the entry of a queue that is detached. -/
theorem publish_next {n : PubSub} {x : PubSubStep} {id : Nat} {channel payload : Bytes}
    {hits : Nat} {phase : Publishing}
    (hc : (n.next stringmatchlen x).calls id = some (.publish channel payload hits phase)) :
    (∃ hits', n.calls id = some (.publish channel payload hits' phase)) ∨ erasing phase = none ∨
      ∃ front, erasing phase = some front ∧ (n.queues front).attached = false := by
  cases x with
  | request k family adds items =>
    unfold next at hc
    dsimp only at hc
    split at hc
    · split at hc <;> exact .inl ⟨hits, hc⟩
    · exact .inl ⟨hits, hc⟩
  | serve k =>
    unfold next at hc
    dsimp only at hc
    split at hc
    · rw [calls_serve] at hc
      exact .inl ⟨hits, hc⟩
    · exact .inl ⟨hits, hc⟩
  | activatePushTypes k => exact .inl ⟨hits, hc⟩
  | detachConnection k =>
    unfold next at hc
    dsimp only at hc
    split at hc <;> exact .inl ⟨hits, hc⟩
  | publish k channel' payload' =>
    unfold next at hc
    dsimp only at hc
    split at hc
    · rw [setCall_calls] at hc
      split at hc
      · cases hc
        exact .inr (.inl rfl)
      · exact .inl ⟨hits, hc⟩
    · exact .inl ⟨hits, hc⟩
  | purgeListeners k resp =>
    unfold next at hc
    dsimp only at hc
    split at hc
    · rw [setCall_calls] at hc
      split at hc
      · cases hc
      · exact .inl ⟨hits, hc⟩
    · exact .inl ⟨hits, hc⟩
  | run k =>
    unfold next at hc
    dsimp only at hc
    split at hc
    · rename_i channel' payload' hits' phase' hk
      by_cases hid : id = k
      · subst hid
        obtain ⟨hits'', phase'', hc', h⟩ := publishStep_erasing stringmatchlen hk
        rw [hc'] at hc
        cases hc
        rcases h with rfl | h
        · exact .inl ⟨hits', hk⟩
        · exact .inr h
      · rw [calls_publishStep_other stringmatchlen n hid] at hc
        exact .inl ⟨hits, hc⟩
    · rename_i resp phase' hk
      rcases calls_purgeStep n k resp phase' id with h | ⟨phase'', h⟩
      · rw [h] at hc
        exact .inl ⟨hits, hc⟩
      · rw [h] at hc
        cases hc
    · exact .inl ⟨hits, hc⟩

theorem gone_next {n : PubSub} (h : Gone n) (x : PubSubStep) : Gone (n.next stringmatchlen x) := by
  intro id channel payload hits phase queue hc he
  have hold : (n.queues queue).attached = false := by
    rcases publish_next stringmatchlen hc with ⟨hits', h'⟩ | h' | ⟨front, h', hf⟩
    · exact h id channel payload hits' phase queue h' he
    · rw [h'] at he
      cases he
    · rw [h'] at he
      cases he
      exact hf
  rcases attached_next stringmatchlen n x queue with ha | ha
  · rw [ha]
    exact hold
  · exact ha

/-! ## The laws of what one queue sees -/

/-- What the counter has still to learn about the item that is being served. -/
def due (r : Option Request) : Int :=
  match r with
  | some { adds, serving := .registered _ _ true, .. } => if adds then -1 else 1
  | _ => 0

/-- The number of items in the two lists. -/
def total (lists : Family → List Bytes) : Nat :=
  (lists .channel).length + (lists .pattern).length

/-- The counter is ahead of the entries by what was purged. -/
def Balanced (s : Standing) (purged : Nat) : Prop :=
  (s.subscriptions : Int) = total s.items + purged + due s.request

/-- The tracker and the maps say the same, except of the item that is being served. -/
structure Agrees (s : Standing) : Prop where
  nodup : ∀ family, (s.tracked family).Nodup
  agree : ∀ family item, (∀ r rest, s.request = some r → r.serving = .tracked item rest →
    r.family ≠ family) → (item ∈ s.tracked family ↔ item ∈ s.items family)
  being_served : ∀ r item rest, s.request = some r → r.serving = .tracked item rest →
    (item ∈ s.tracked r.family ↔ r.adds = true)

theorem total_replace (lists : Family → List Bytes) (family : Family) (items : List Bytes) :
    total (replace lists family items) + (lists family).length = total lists + items.length := by
  cases family <;> simp [total, replace] <;> omega

theorem balanced_served {s : Standing} {purged : Nat} (h : Balanced s purged) {r : Request}
    (hr : s.request = some r) : Balanced (s.served r) purged := by
  obtain ⟨family, adds, serving⟩ := r
  unfold Balanced at h ⊢
  rw [hr] at h
  cases serving with
  | items rest =>
    cases rest with
    | nil => exact h
    | cons item rest => exact h
  | tracked item rest =>
    have hd : due (some { family, adds, serving := .tracked item rest }) = 0 := rfl
    rw [hd] at h
    simp only [Standing.served]
    have ht := total_replace s.items family
      (if adds then if item ∈ s.items family then s.items family else item :: s.items family
        else (s.items family).erase item)
    cases adds with
    | true =>
      by_cases hi : item ∈ s.items family
      · simp only [hi, if_true] at ht ⊢
        simp only [due, decide_true, bne_self_eq_false]
        omega
      · simp only [hi, if_true, if_false, List.length_cons] at ht ⊢
        simp only [due, decide_false, Bool.false_bne, if_true]
        omega
    | false =>
      by_cases hi : item ∈ s.items family
      · have hlen := List.length_erase_of_mem hi
        have hpos := List.length_pos_of_mem hi
        simp only [hi, Bool.false_eq_true, if_false] at ht ⊢
        simp only [due, decide_true, Bool.bne_false, Bool.false_eq_true, if_false]
        omega
      · have hlen := congrArg List.length (List.erase_of_not_mem hi)
        simp only [hi, Bool.false_eq_true, if_false] at ht ⊢
        simp only [due, decide_false, bne_self_eq_false]
        omega
  | registered item rest result =>
    simp only [Standing.served]
    have hd : due (some { family, adds, serving := .items rest }) = 0 := rfl
    rw [hd]
    cases result with
    | false =>
      have hd' : due (some { family, adds, serving := .registered item rest false }) = 0 := rfl
      rw [hd'] at h
      cases adds <;> simpa using h
    | true =>
      cases adds with
      | true =>
        have hd' : due (some { family, adds := true, serving := .registered item rest true }) = -1 :=
          rfl
        rw [hd'] at h
        simp only [if_true, Bool.toNat_true]
        omega
      | false =>
        have hd' : due (some { family, adds := false, serving := .registered item rest true }) = 1 :=
          rfl
        rw [hd'] at h
        simp only [Bool.false_eq_true, if_false, Bool.toNat_true]
        omega

theorem balanced_purged {s : Standing} {purged : Nat} (h : Balanced s purged) {family : Family}
    {key : Bytes} (hk : key ∈ s.items family) :
    Balanced { s with items := replace s.items family ((s.items family).erase key) }
      (purged + 1) := by
  have ht := total_replace s.items family ((s.items family).erase key)
  have hlen := List.length_erase_of_mem hk
  have hpos := List.length_pos_of_mem hk
  unfold Balanced at h ⊢
  dsimp only
  omega

theorem mem_replace {lists : Family → List Bytes} {family f : Family} {items : List Bytes}
    {item : Bytes} : item ∈ replace lists family items f ↔
      if f = family then item ∈ items else item ∈ lists f := by
  unfold replace
  split <;> rfl

theorem agrees_served {s : Standing} (h : Agrees s) (hitems : ∀ family, (s.items family).Nodup)
    {r : Request} (hr : s.request = some r) : Agrees (s.served r) := by
  obtain ⟨hn, ha, hb⟩ := h
  obtain ⟨family, adds, serving⟩ := r
  cases serving with
  | items rest =>
    have hfree : ∀ f item, item ∈ s.tracked f ↔ item ∈ s.items f := by
      intro f item
      apply ha f item
      intro r' rest' hr' hs
      rw [hr] at hr'
      cases hr'
      cases hs
    cases rest with
    | nil =>
      refine ⟨hn, fun f item _ => hfree f item, ?_⟩
      intro r' item rest' hr'
      cases hr'
    | cons item rest =>
      refine ⟨?_, ?_, ?_⟩
      · intro f
        simp only [Standing.served, replace]
        split
        · split
          · exact (hn family).insert
          · exact (hn family).erase item
        · exact hn f
      · intro f i hi
        simp only [Standing.served, mem_replace]
        split
        · rename_i hf
          have hne : i ≠ item := by
            rintro rfl
            exact hi _ rest rfl rfl hf.symm
          rw [hf]
          split
          · rw [List.mem_insert_iff, or_iff_right hne]
            exact hfree family i
          · rw [List.mem_erase_of_ne hne]
            exact hfree family i
        · exact hfree f i
      · intro r' i rest' hr' hs
        cases hr'
        cases hs
        simp only [Standing.served, mem_replace, if_true]
        cases adds with
        | true => simp
        | false => simp [(hn family).mem_erase_iff]
  | tracked item rest =>
    refine ⟨hn, ?_, ?_⟩
    · intro f i _
      simp only [Standing.served, mem_replace]
      have hother : ¬ (f = family ∧ i = item) → (i ∈ s.tracked f ↔ i ∈ s.items f) := by
        intro hne
        apply ha f i
        intro r' rest' hr' hs hf
        rw [hr] at hr'
        cases hr'
        cases hs
        exact hne ⟨hf.symm, rfl⟩
      have hitem := hb _ item rest hr rfl
      by_cases hf : f = family
      · subst hf
        by_cases hi : i = item
        · subst hi
          rw [hitem, if_pos rfl]
          cases adds with
          | true => by_cases hm : i ∈ s.items f <;> simp [hm]
          | false => simp [(hitems f).mem_erase_iff]
        · rw [hother (fun h => hi h.2), if_pos rfl]
          cases adds with
          | true => by_cases hm : item ∈ s.items f <;> simp [hm, hi]
          | false => simp [List.mem_erase_of_ne hi]
      · rw [if_neg hf]
        exact hother fun h => hf h.1
    · intro r' i rest' hr' hs
      cases hr'
      cases hs
  | registered item rest result =>
    refine ⟨hn, ?_, ?_⟩
    · intro f i _
      apply ha f i
      intro r' rest' hr' hs
      rw [hr] at hr'
      cases hr'
      cases hs
    · intro r' i rest' hr' hs
      cases hr'
      cases hs

theorem agrees_request {s : Standing} (h : Agrees s) (hr : s.request = none) (family : Family)
    (adds : Bool) (items : List Bytes) :
    Agrees { s with request := some { family, adds, serving := .items items } } := by
  refine ⟨h.nodup, ?_, ?_⟩
  · intro f item _
    apply h.agree f item
    intro r rest hr'
    rw [hr] at hr'
    cases hr'
  · intro r item rest hr' hs
    cases hr'
    cases hs

/-! ## Runs -/

/-- No purge of the run has erased an entry of the queue. -/
def Unpurged (xs : List PubSubStep) (queue : Nat) : Prop :=
  ∀ before x, before ++ [x] <+: xs → ¬ Purges (start.runAll stringmatchlen before) x queue

theorem runAll_append (n : PubSub) (xs ys : List PubSubStep) :
    n.runAll stringmatchlen (xs ++ ys) = (n.runAll stringmatchlen xs).runAll stringmatchlen ys :=
  List.foldl_append

theorem unpurged_snoc (xs : List PubSubStep) (x : PubSubStep) (queue : Nat) :
    Unpurged stringmatchlen (xs ++ [x]) queue ↔
      Unpurged stringmatchlen xs queue ∧ ¬ Purges (start.runAll stringmatchlen xs) x queue := by
  constructor
  · intro h
    exact ⟨fun before y hb => h before y (hb.trans (List.prefix_append xs [x])),
      h xs x (List.prefix_refl _)⟩
  · rintro ⟨h, hx⟩ before y hb
    rcases List.prefix_concat_iff.mp hb with he | hb
    · obtain ⟨rfl, hy⟩ := List.append_inj' he rfl
      cases hy
      exact hx
    · exact h before y hb

theorem gone_runAll (xs : List PubSubStep) : Gone (start.runAll stringmatchlen xs) := by
  induction xs using List.reverseRecOn with
  | nil =>
    intro id channel payload hits phase queue hc
    cases hc
  | append_singleton xs x ih =>
    rw [runAll_append]
    exact gone_next stringmatchlen ih x

/-- What a run has made of the counter of an attached queue. -/
theorem counted (xs : List PubSubStep) {queue : Nat}
    (ha : ((start.runAll stringmatchlen xs).queues queue).attached = true) :
    ∃ purged, Balanced ((start.runAll stringmatchlen xs).standing queue) purged ∧
      (purged = 0 ↔ Unpurged stringmatchlen xs queue) ∧
      (Unpurged stringmatchlen xs queue →
        Agrees ((start.runAll stringmatchlen xs).standing queue)) := by
  induction xs using List.reverseRecOn with
  | nil =>
    refine ⟨0, rfl, ?_, ?_⟩
    · simp [Unpurged]
    · intro _
      exact ⟨fun _ => List.nodup_nil, fun _ _ _ => Iff.rfl, fun r _ _ hr => by cases hr⟩
  | append_singleton xs x ih =>
    have hg := gone_runAll stringmatchlen xs
    rw [runAll_append] at ha ⊢
    rw [unpurged_snoc]
    generalize hn : start.runAll stringmatchlen xs = n at *
    have hold : (n.queues queue).attached = true := by
      rcases attached_next stringmatchlen n x queue with h | h
      · rw [← h]
        exact ha
      · have ha : ((n.next stringmatchlen x).queues queue).attached = true := ha
        rw [h] at ha
        cases ha
    obtain ⟨purged, hb, hp, hagree⟩ := ih hold
    show ∃ purged, Balanced ((n.next stringmatchlen x).standing queue) purged ∧ _ ∧
      (_ → Agrees ((n.next stringmatchlen x).standing queue))
    rcases standing_next stringmatchlen hg hold x with
      ⟨hs, hno⟩ | ⟨hgone, -⟩ | ⟨family, adds, items, hr, hno, hs⟩ | ⟨r, hr, hno, hs⟩ |
        ⟨family, key, hyes, hk, hs⟩
    · rw [hs]
      exact ⟨purged, hb, by simp [hno, hp], fun h => hagree h.1⟩
    · have ha : ((n.next stringmatchlen x).queues queue).attached = true := ha
      rw [hgone] at ha
      cases ha
    · rw [hs]
      refine ⟨purged, ?_, by simp [hno, hp], fun h => agrees_request (hagree h.1) hr _ _ _⟩
      have hr : (n.standing queue).request = none := hr
      unfold Balanced at hb ⊢
      rw [hr] at hb
      exact hb
    · rw [hs]
      exact ⟨purged, balanced_served hb hr, by simp [hno, hp],
        fun h => agrees_served (hagree h.1) (nodup_itemsOf n queue) hr⟩
    · rw [hs]
      exact ⟨purged + 1, balanced_purged hb hk, by simp [hyes], fun h => absurd hyes h.2⟩

/-- When a connection is served no request, the counter of its queue is the number of
entries that are registered for it, and of the items it tracks, if and only if no
purge has erased one of its entries. -/
theorem the_count_is_right_iff_nothing_was_purged (xs : List PubSubStep) {n : PubSub} {queue : Nat}
    (hn : start.runAll stringmatchlen xs = n) (ha : (n.queues queue).attached = true)
    (hidle : n.requests queue = none) :
    ((n.queues queue).subscriptions = n.entries queue ∧
      n.entries queue = n.trackedItems queue) ↔ Unpurged stringmatchlen xs queue := by
  subst hn
  obtain ⟨purged, hb, hp, hagree⟩ := counted stringmatchlen xs ha
  have hr : ((start.runAll stringmatchlen xs).standing queue).request = none := hidle
  unfold Balanced at hb
  rw [hr] at hb
  have hb : (((start.runAll stringmatchlen xs).queues queue).subscriptions : Int) =
      (start.runAll stringmatchlen xs).entries queue + purged + 0 := hb
  rw [← hp]
  constructor
  · rintro ⟨h, -⟩
    omega
  · intro h0
    refine ⟨by omega, ?_⟩
    obtain ⟨hnodup, hsame, -⟩ := hagree (hp.mp h0)
    have hlen : ∀ family, ((start.runAll stringmatchlen xs).itemsOf queue family).length =
        (((start.runAll stringmatchlen xs).queues queue).tracked family).length := by
      intro family
      apply length_itemsOf (hnodup family)
      intro item
      apply hsame family item
      intro r rest hr'
      rw [hr] at hr'
      cases hr'
    unfold entries trackedItems
    rw [hlen, hlen]

/-- A connection subscribes to a channel and to a pattern, and leaves the channel. -/
def someRequests : List PubSubStep :=
  [PubSubStep.request 1 .channel true [ascii "news", ascii "news"]] ++
    List.replicate 7 (PubSubStep.serve 1) ++
    [PubSubStep.request 1 .pattern true [ascii "n*"]] ++ List.replicate 4 (PubSubStep.serve 1) ++
    [PubSubStep.request 1 .channel false [ascii "news", ascii "other"]] ++
    List.replicate 7 (PubSubStep.serve 1)

/-- Another connection subscribes, and a purge erases its entry. -/
def anotherPurged : List PubSubStep :=
  [PubSubStep.request 3 .channel true [ascii "news"]] ++ List.replicate 4 (PubSubStep.serve 3) ++
    [PubSubStep.purgeListeners 2 (ascii "-ERR unavailable")] ++ List.replicate 7 (PubSubStep.run 2)

theorem nothing_registered_before (family : Family) : ∀ before ∈ anotherPurged.inits,
    (start.runAll (fun _ _ => false) before).itemsOf 1 family = [] := by
  cases family <;> decide +kernel

/-- The purge was over when the connection came. -/
theorem the_count_is_right_after_another_was_purged :
    ∃ n, start.runAll (fun _ _ => false) (anotherPurged ++ someRequests) = n ∧
      (n.queues 3).subscriptions = 1 ∧ n.entries 3 = 0 ∧
      (n.queues 1).subscriptions = n.entries 1 ∧ n.entries 1 = n.trackedItems 1 := by
  refine ⟨_, rfl, rfl, rfl, (the_count_is_right_iff_nothing_was_purged (fun _ _ => false)
    (anotherPurged ++ someRequests) rfl rfl rfl).mpr ?_⟩
  rintro before x ⟨after, hb⟩ ⟨id, resp, family, key, keys, rest, rfl, -, hkey⟩
  have hin : before ++ [PubSubStep.run id] <+: anotherPurged := by
    rcases List.append_eq_append_iff.mp hb with ⟨tail, htail, -⟩ | ⟨tail, htail, hsome⟩
    · exact ⟨tail, htail.symm⟩
    · cases tail using List.reverseRecOn with
      | nil => exact ⟨[], by simpa using htail⟩
      | append_singleton tail last =>
        -- The step is one of the connection's own, none of which runs a purge.
        rw [← List.append_assoc] at htail
        obtain ⟨-, hlast⟩ := List.append_inj' htail rfl
        have hmem : PubSubStep.run id ∈ someRequests := by
          rw [hsome, ← hlast]
          simp
        simp [someRequests] at hmem
  have hbefore : before ∈ anotherPurged.inits :=
    (List.mem_inits _ _).mpr ((List.prefix_append _ _).trans hin)
  rw [nothing_registered_before family before hbefore] at hkey
  cases hkey

/-- A purge erases the entries of a queue, which keeps counting and tracking them. -/
theorem a_purge_leaves_the_count :
    ∃ n, start.runAll (fun _ _ => false) ([PubSubStep.request 1 .channel true [ascii "news"]] ++
        List.replicate 4 (PubSubStep.serve 1) ++
        [PubSubStep.purgeListeners 2 (ascii "-ERR unavailable")] ++
        List.replicate 7 (PubSubStep.run 2)) = n ∧
      (n.queues 1).attached = true ∧ n.requests 1 = none ∧
      n.calls 2 = some (.purgeListeners (ascii "-ERR unavailable") .done) ∧
      (n.queues 1).subscriptions = 1 ∧ n.entries 1 = 0 ∧ n.trackedItems 1 = 1 := by
  refine ⟨_, rfl, ?_, ?_, ?_, ?_, ?_, ?_⟩ <;> rfl

end PubSub
end quarkdb
