-- A node that crashes loses what its state machine has not written to disk. The journal is
-- applied again from there, and each entry takes effect once.
import QuarkDB.Restarts
import QuarkDB.WriteTracker

namespace quarkdb

open Endian StateMachine Outcome RedisDispatcher

/-! ## The node and its disk -/

/-- A batch on disk: the store it leaves, and the requests that are in it and in the
batches before. -/
structure Batch where
  store : Store
  history : List (Int × RedisRequest)

/-- The journal is a database of its own, written before anything is applied: it survives a crash
whole. -/
structure Replica where
  node : TrackedNode
  machine : Machine
  /-- The batches of the state machine, the newest first. -/
  disk : List Batch

inductive ReplicaStep
  | track (x : TrackStep)
  /-- The process ends, and the newest batches are lost. -/
  | crash (lost : Nat)

namespace Replica

open TrackedNode

section

variable (doubles : Doubles) (reads : Store → RedisRequest → Except Fault Bytes)

/-- The process starts. Opening the state machine may take two batches. -/
def boot (journal : RaftJournal) : List Batch → Option Replica
  | [] => none
  | batch :: older => do
    let machine ← orDie
      (reopen { store := batch.store, expirationCache := [], lastApplied := 0 })
    return {
      node := { startOn journal machine.lastApplied with
        machine := { lastApplied := machine.lastApplied, history := batch.history } }
      machine
      disk := { batch with store := machine.store } ::
        { batch with store := clocked batch.store } :: batch :: older }

/-- `dispatchPending`, as the state machine sees it. -/
def dispatchPending (commitIndex : Int) (m : Machine) (found : Bool) :
    List PendingRequest → Except Fault Machine
  | [] => if found then .ok m else .error (.thrown "entry with index not found")
  | req :: rest =>
    if commitIndex < req.index then .ok m
    else if req.rawResp ≠ [] then dispatchPending commitIndex m found rest
    else if 0 < req.index ∧ found = true then
      .error (.thrown "queue corruption: found entry with positive index twice")
    else if 0 < req.index ∧ req.index ≠ commitIndex then
      .error (.thrown "queue corruption: expected entry with another index")
    else do
      let (_, m) ← dispatchTransaction doubles (fromStore reads) m req.tx req.index
      dispatchPending commitIndex m (found || decide (0 < req.index)) rest

/-- `RaftWriteTracker::applySingleCommit`, as the state machine sees it. -/
def applySingleCommit (r : Replica) (index : Int) : Option Machine :=
  match r.node.blockedWrites.lookup index with
  | none => do
    let entry ← r.node.journal.fetch index
    let (_, machine) ← orDie
      (dispatch doubles (fromStore reads) r.machine entry.request index)
    return machine
  | some queue =>
    orDie (dispatchPending doubles reads index r.machine false (r.node.queues queue).pending)

/-- What a step makes of the node, and `none` when it throws and the process ends. -/
def next (r : Replica) : ReplicaStep → Option Replica
  | .track (.append queue index term tx) =>
    -- `service` appends only what writes
    if tx.containsWrites then do
      let node ← r.node.next (.append queue index term tx)
      return { r with node }
    else some r
  | .track .applySingleCommit =>
    match r.node.applying with
    | none => some r
    | some a =>
      if a.commitIndex < a.index then do
        let node ← r.node.next .applySingleCommit
        return { r with node }
      else do
        let machine ← r.applySingleCommit doubles reads a.index
        let node ← r.node.next .applySingleCommit
        return {
          node
          machine
          disk := { store := machine.store, history := node.machine.history } :: r.disk }
  | .track x => do
    let node ← r.node.next x
    return { r with node }
  | .crash lost => do
    let journal ← orDie (RaftJournal.initializeJournal r.node.journal.db)
    boot journal (r.disk.drop lost)

def runAll (r : Replica) : List ReplicaStep → Option Replica
  | [] => some r
  | x :: xs => r.next doubles reads x >>= fun r => r.runAll xs

end

end Replica

/-! ## What waits -/

/-- A transaction of a client that goes to the journal; its text fits into a string. -/
structure ClientWrite (tx : Transaction) : Prop where
  writes : tx.containsWrites = true
  fits : tx.serialize.length < 2 ^ 63

/-- A request that waits has an index if and only if it writes. -/
def Proper (p : PendingRequest) : Prop :=
  (0 < p.index → ClientWrite p.tx ∧ p.rawResp = []) ∧ (p.index ≤ 0 → p.tx.containsWrites = false)

/-- Whoever is blocked on an index has the write with that index in its queue. -/
structure Waiting (n : TrackedNode) : Prop where
  proper : ∀ k, ∀ p ∈ (n.queues k).pending, Proper p
  answered : ∀ i k, n.blockedWrites.lookup i = some k →
    (∃ p ∈ TrackedNode.writesOf (n.queues k), p.index = i) ∨
      ∃ tx, n.writing = some (.inserted k i tx)
  writing : ∀ k i tx, n.writing = some (.appended k i tx) ∨ n.writing = some (.inserted k i tx) →
    ClientWrite tx

namespace TrackedNode

variable {known : Known} {n n' : TrackedNode}

theorem waiting_congr (h : Waiting n) (hq : n'.queues = n.queues)
    (hb : n'.blockedWrites = n.blockedWrites) (hw : n'.writing = n.writing) : Waiting n' := by
  refine ⟨?_, ?_, ?_⟩
  · rw [hq]
    exact h.proper
  · rw [hq, hb, hw]
    exact h.answered
  · rw [hw]
    exact h.writing

theorem waiting_flush (h : Waiting n) : Waiting n.flush := by
  refine ⟨fun k p hp => ?_, fun i k hl => ?_, h.writing⟩
  · have hp : p ∈ (if k ∈ n.blockedWrites.entries.map Sigma.snd then (n.queues k).flushPending
      else n.queues k).pending := hp
    split at hp
    · exact absurd hp List.not_mem_nil
    · exact h.proper k p hp
  · have hl : (∅ : RaftBlockedWrites).lookup i = some k := hl
    rw [AList.lookup_empty] at hl
    cases hl

/-- A queue gets requests that have no index. -/
theorem waiting_setQueue (h : Waiting n) {queue : Nat} {q : PendingQueue}
    (hp : ∀ p ∈ q.pending, p ∈ (n.queues queue).pending ∨ Proper p)
    (hq : writesOf q = writesOf (n.queues queue)) : Waiting (n.setQueue queue q) := by
  refine ⟨fun k p hm => ?_, fun i k hl => ?_, h.writing⟩
  · have hm : p ∈ (if k = queue then q else n.queues k).pending := hm
    split at hm
    · rcases hp p hm with hm | hm
      · exact h.proper queue p hm
      · exact hm
    · exact h.proper k p hm
  · rw [writesOf_setQueue hq]
    exact h.answered i k hl

theorem waiting_receivePhase (h : Waiting n) {phase : Receiving}
    (hn : n.receivePhase phase = some n') : Waiting n' := by
  cases phase with
  | entered req =>
    simp only [receivePhase] at hn
    split_ifs at hn
    · cases hn
      exact waiting_congr (waiting_flush h) rfl rfl rfl
    · cases hn
      exact h
  | flushed req =>
    simp only [receivePhase] at hn
    split_ifs at hn
    · cases hn
      exact waiting_congr h rfl rfl rfl
    · obtain ⟨first, -, hn⟩ := Option.bind_eq_some_iff.mp hn
      cases hn
      exact waiting_congr h rfl rfl rfl
  | compared req first =>
    simp only [receivePhase] at hn
    split_ifs at hn
    · cases hn
      exact waiting_congr h rfl rfl rfl
    · obtain ⟨b, -, hn⟩ := Option.bind_eq_some_iff.mp hn
      cases hn
      exact waiting_congr h rfl rfl rfl
  | appending index entries commitIndex =>
    cases entries with
    | nil =>
      cases hn
      exact waiting_congr h rfl rfl rfl
    | cons entry rest =>
      obtain ⟨ok, -, hn⟩ := Option.bind_eq_some_iff.mp hn
      cases hn
      exact waiting_congr h rfl rfl rfl
  | appended commitIndex =>
    obtain ⟨b, -, hn⟩ := Option.bind_eq_some_iff.mp hn
    cases hn
    exact waiting_congr h rfl rfl rfl

theorem waiting_insertBlocked (h : Waiting n) {queue : Nat} {index : Int} {tx : Transaction}
    (hw : n.writing = some (.appended queue index tx)) :
    Waiting { n with
      blockedWrites := n.blockedWrites.insert index queue
      writing := some (.inserted queue index tx) } := by
  refine ⟨h.proper, fun i k hl => ?_, ?_⟩
  · have hl : (n.blockedWrites.insert index queue).lookup i = some k := hl
    by_cases hi : i = index
    · subst hi
      rw [AList.lookup_insert] at hl
      cases hl
      exact .inr ⟨tx, rfl⟩
    · rw [AList.lookup_insert_ne hi] at hl
      rcases h.answered i k hl with hp | ⟨tx', hw'⟩
      · exact .inl hp
      · rw [hw] at hw'
        cases hw'
  · rintro k i tx' (hw' | hw') <;> cases hw'
    exact h.writing queue index tx (.inl hw)

theorem pending_addPendingTransaction {q q' : PendingQueue} {tx : Transaction} {index : Int}
    (h : q.addPendingTransaction tx index = .ok q') :
    (index < 0 ∧ q' = q) ∨ q'.pending = q.pending ++ [({ tx, index } : PendingRequest)] := by
  unfold PendingQueue.addPendingTransaction at h
  split at h
  · cases h
  split at h
  · rename_i hread
    obtain ⟨u, -, h⟩ := ok_of_bind h
    cases h
    exact .inl ⟨hread.2, rfl⟩
  split at h
  · cases h
  · cases h
    exact .inr rfl

theorem waiting_addPending (h : Waiting n) {queue : Nat} {index : Int} {tx : Transaction}
    (hw : n.writing = some (.inserted queue index tx)) (h0 : 0 < index) {q : PendingQueue}
    (hq : (n.queues queue).addPendingTransaction tx index = .ok q) :
    Waiting { n.setQueue queue q with writing := none } := by
  have hpending : q.pending = (n.queues queue).pending ++ [({ tx, index } : PendingRequest)] := by
    rcases pending_addPendingTransaction hq with ⟨hlt, -⟩ | hq
    · omega
    · exact hq
  have hnew : Proper { tx, index } :=
    ⟨fun _ => ⟨h.writing queue index tx (.inr hw), rfl⟩, fun hle => absurd h0 (not_lt.mpr hle)⟩
  refine ⟨fun k p hp => ?_, fun i k hl => ?_, ?_⟩
  · have hp : p ∈ (if k = queue then q else n.queues k).pending := hp
    split_ifs at hp with hk
    · rw [hpending, List.mem_append, List.mem_singleton] at hp
      rcases hp with hp | rfl
      · exact h.proper queue p hp
      · exact hnew
    · exact h.proper k p hp
  · left
    show ∃ p ∈ writesOf (if k = queue then q else n.queues k), p.index = i
    have hmore : ∀ p, p ∈ writesOf (n.queues queue) ∨ p = { tx, index } → p ∈ writesOf q := by
      intro p hp
      unfold writesOf at hp ⊢
      rw [hpending, List.filter_append, List.mem_append]
      rcases hp with hp | rfl
      · exact .inl hp
      · exact .inr (List.mem_filter.mpr ⟨List.mem_singleton_self _, decide_eq_true h0⟩)
    rcases h.answered i k hl with ⟨p, hp, hi⟩ | ⟨tx', hw'⟩
    · split_ifs with hk
      · subst hk
        exact ⟨p, hmore p (.inl hp), hi⟩
      · exact ⟨p, hp, hi⟩
    · rw [hw] at hw'
      cases hw'
      rw [if_pos rfl]
      exact ⟨{ tx, index }, hmore _ (.inr rfl), rfl⟩
  · rintro k i tx' (hw' | hw') <;> cases hw'

/-- Every step but those that apply. -/
theorem waiting_next (ht : Tracked known n) (h : Waiting n) {x : TrackStep}
    (hx : x ≠ .applySingleCommit)
    (hwrite : ∀ queue index term tx, x = .append queue index term tx → ClientWrite tx)
    (hn : n.next x = some n') : Waiting n' := by
  cases x with
  | detach queue =>
    cases hn
    exact waiting_setQueue h (fun p hp => .inl hp) rfl
  | response queue raw =>
    obtain ⟨q, hq, hn⟩ := Option.bind_eq_some_iff.mp hn
    cases hn
    have hq := orDie_some hq
    refine waiting_setQueue h (fun p hp => ?_) (writesOf_appendResponse hq)
    unfold PendingQueue.appendResponse at hq
    split_ifs at hq
    · cases hq
      exact .inl hp
    · cases hq
      rcases List.mem_append.mp hp with hp | hp
      · exact .inl hp
      · rw [List.mem_singleton.mp hp]
        exact .inr ⟨fun h => absurd h (by simp), fun _ => rfl⟩
  | read queue tx =>
    simp only [next] at hn
    split_ifs at hn with hw
    · cases hn
      exact h
    · obtain ⟨q, hq, hn⟩ := Option.bind_eq_some_iff.mp hn
      cases hn
      have hq := orDie_some hq
      refine waiting_setQueue h (fun p hp => ?_) ?_
      · rcases pending_addPendingTransaction hq with ⟨-, rfl⟩ | hq
        · exact .inl hp
        · rw [hq] at hp
          rcases List.mem_append.mp hp with hp | hp
          · exact .inl hp
          · rw [List.mem_singleton.mp hp]
            exact .inr ⟨fun h => absurd h (by simp), fun _ => by simpa using hw⟩
      · rcases addPendingTransaction_cases hq with ⟨-, hw⟩ | hw
        · exact hw
        · rw [hw, if_neg (by omega)]
  | append queue index term tx =>
    simp only [next] at hn
    split_ifs at hn with hfree
    · obtain ⟨ok, hok, hn⟩ := Option.bind_eq_some_iff.mp hn
      split_ifs at hn with hb
      · cases hn
        have hwnone := (raftCommandFree_iff.mp hfree.1).1
        refine ⟨h.proper, fun i k hl => ?_, ?_⟩
        · rcases h.answered i k hl with hp | ⟨tx', hw'⟩
          · exact .inl hp
          · exact (not_some_of_none hwnone hw').elim
        · rintro k i tx' (hw' | hw') <;> cases hw'
          exact hwrite queue index term tx rfl
      · cases hn
        exact h
    · cases hn
      exact h
  | insertBlocked =>
    simp only [next] at hn
    split at hn
    · rename_i queue index tx hw
      cases hn
      exact waiting_insertBlocked h hw
    · cases hn
      exact h
  | addPending =>
    simp only [next] at hn
    split at hn
    · rename_i queue index tx hw
      obtain ⟨q, hq, hn⟩ := Option.bind_eq_some_iff.mp hn
      cases hn
      exact waiting_addPending h hw (ht.writing_sound _ hw).1 (orDie_some hq)
    · cases hn
      exact h
  | beginReceive req =>
    simp only [next] at hn
    split_ifs at hn
    · cases hn
      exact waiting_congr h rfl rfl rfl
    · cases hn
      exact h
  | receive =>
    simp only [next] at hn
    split at hn
    · exact waiting_receivePhase h hn
    · cases hn
      exact h
  | flushQueues =>
    simp only [next] at hn
    split_ifs at hn
    · cases hn
      exact waiting_flush h
    · cases hn
      exact h
  | appendOwn index entry =>
    obtain ⟨b, -, hn⟩ := Option.bind_eq_some_iff.mp hn
    cases hn
    exact waiting_congr h rfl rfl rfl
  | setCurrentTerm term vote =>
    obtain ⟨b, -, hn⟩ := Option.bind_eq_some_iff.mp hn
    cases hn
    exact waiting_congr h rfl rfl rfl
  | setCommitIndex index =>
    obtain ⟨b, -, hn⟩ := Option.bind_eq_some_iff.mp hn
    cases hn
    exact waiting_congr h rfl rfl rfl
  | trimUntil newLogStart =>
    obtain ⟨b, -, hn⟩ := Option.bind_eq_some_iff.mp hn
    cases hn
    exact waiting_congr h rfl rfl rfl
  | readCommitIndex =>
    cases hn
    exact waiting_congr h rfl rfl rfl
  | beginApply =>
    simp only [next] at hn
    split_ifs at hn
    · cases hn
      exact waiting_congr h rfl rfl rfl
    · cases hn
      exact h
  | applySingleCommit => exact absurd rfl hx

/-- `appendEntries` applies nothing. -/
theorem receivePhase_machine {phase : Receiving} (hn : n.receivePhase phase = some n') :
    n'.machine = n.machine ∧ n'.applying = n.applying := by
  cases phase with
  | entered req =>
    simp only [receivePhase] at hn
    split_ifs at hn <;> cases hn <;> exact ⟨rfl, rfl⟩
  | flushed req =>
    simp only [receivePhase] at hn
    split_ifs at hn
    · cases hn
      exact ⟨rfl, rfl⟩
    · obtain ⟨first, -, hn⟩ := Option.bind_eq_some_iff.mp hn
      cases hn
      exact ⟨rfl, rfl⟩
  | compared req first =>
    simp only [receivePhase] at hn
    split_ifs at hn
    · cases hn
      exact ⟨rfl, rfl⟩
    · obtain ⟨b, -, hn⟩ := Option.bind_eq_some_iff.mp hn
      cases hn
      exact ⟨rfl, rfl⟩
  | appending index entries commitIndex =>
    cases entries with
    | nil =>
      cases hn
      exact ⟨rfl, rfl⟩
    | cons entry rest =>
      obtain ⟨ok, -, hn⟩ := Option.bind_eq_some_iff.mp hn
      cases hn
      exact ⟨rfl, rfl⟩
  | appended commitIndex =>
    obtain ⟨b, -, hn⟩ := Option.bind_eq_some_iff.mp hn
    cases hn
    exact ⟨rfl, rfl⟩

/-- Only the applier applies, and it starts at the index after the last one. -/
theorem next_machine {x : TrackStep} (hx : x ≠ .applySingleCommit) (hn : n.next x = some n') :
    n'.machine = n.machine ∧ ∀ a, n'.applying = some a →
      n.applying = some a ∨ a.index = n.machine.lastApplied + 1 := by
  cases x with
  | detach queue =>
    cases hn
    exact ⟨rfl, fun _ => .inl⟩
  | response queue raw =>
    obtain ⟨q, -, hn⟩ := Option.bind_eq_some_iff.mp hn
    cases hn
    exact ⟨rfl, fun _ => .inl⟩
  | read queue tx =>
    simp only [next] at hn
    split_ifs at hn
    · cases hn
      exact ⟨rfl, fun _ => .inl⟩
    · obtain ⟨q, -, hn⟩ := Option.bind_eq_some_iff.mp hn
      cases hn
      exact ⟨rfl, fun _ => .inl⟩
  | append queue index term tx =>
    simp only [next] at hn
    split_ifs at hn
    · obtain ⟨ok, -, hn⟩ := Option.bind_eq_some_iff.mp hn
      split_ifs at hn <;> cases hn <;> exact ⟨rfl, fun _ => .inl⟩
    · cases hn
      exact ⟨rfl, fun _ => .inl⟩
  | insertBlocked =>
    simp only [next] at hn
    split at hn <;> cases hn <;> exact ⟨rfl, fun _ => .inl⟩
  | addPending =>
    simp only [next] at hn
    split at hn
    · obtain ⟨q, -, hn⟩ := Option.bind_eq_some_iff.mp hn
      cases hn
      exact ⟨rfl, fun _ => .inl⟩
    · cases hn
      exact ⟨rfl, fun _ => .inl⟩
  | beginReceive req =>
    simp only [next] at hn
    split_ifs at hn <;> cases hn <;> exact ⟨rfl, fun _ => .inl⟩
  | receive =>
    simp only [next] at hn
    split at hn
    · obtain ⟨hm, ha⟩ := receivePhase_machine hn
      rw [ha]
      exact ⟨hm, fun _ => .inl⟩
    · cases hn
      exact ⟨rfl, fun _ => .inl⟩
  | flushQueues =>
    simp only [next] at hn
    split_ifs at hn <;> cases hn <;> exact ⟨rfl, fun _ => .inl⟩
  | appendOwn index entry =>
    obtain ⟨b, -, hn⟩ := Option.bind_eq_some_iff.mp hn
    cases hn
    exact ⟨rfl, fun _ => .inl⟩
  | setCurrentTerm term vote =>
    obtain ⟨b, -, hn⟩ := Option.bind_eq_some_iff.mp hn
    cases hn
    exact ⟨rfl, fun _ => .inl⟩
  | setCommitIndex index =>
    obtain ⟨b, -, hn⟩ := Option.bind_eq_some_iff.mp hn
    cases hn
    exact ⟨rfl, fun _ => .inl⟩
  | trimUntil newLogStart =>
    obtain ⟨b, -, hn⟩ := Option.bind_eq_some_iff.mp hn
    cases hn
    exact ⟨rfl, fun _ => .inl⟩
  | readCommitIndex =>
    cases hn
    exact ⟨rfl, fun _ => .inl⟩
  | beginApply =>
    simp only [next] at hn
    split_ifs at hn
    · cases hn
      refine ⟨rfl, ?_⟩
      rintro a ⟨⟩
      exact .inr rfl
    · cases hn
      exact ⟨rfl, fun _ => .inl⟩
  | applySingleCommit => exact absurd rfl hx

theorem applyIndex_journal {index : Int} (hn : n.applyIndex index = some n') :
    n'.journal = n.journal := by
  unfold applyIndex at hn
  rcases hl : n.blockedWrites.lookup index with _ | queue <;> rw [hl] at hn
  · obtain ⟨entry, -, hn⟩ := Option.bind_eq_some_iff.mp hn
    obtain ⟨machine, -, hn⟩ := Option.bind_eq_some_iff.mp hn
    cases hn
    rfl
  · obtain ⟨⟨machine, left, newBlockingIndex⟩, -, hn⟩ := Option.bind_eq_some_iff.mp hn
    simp only at hn
    split_ifs at hn <;> cases hn <;> rfl

/-- The commit index never goes back. -/
theorem commit_le_receivePhase (h : RaftJournal.Good n.journal) {phase : Receiving}
    (hn : n.receivePhase phase = some n') :
    RaftJournal.Good n'.journal ∧ n.journal.commitIndex ≤ n'.journal.commitIndex := by
  have hself : RaftJournal.Good n.journal ∧ n.journal.commitIndex ≤ n.journal.commitIndex :=
    ⟨h, le_refl _⟩
  cases phase with
  | entered req =>
    simp only [receivePhase] at hn
    split_ifs at hn <;> cases hn <;> exact hself
  | flushed req =>
    simp only [receivePhase] at hn
    split_ifs at hn
    · cases hn
      exact hself
    · obtain ⟨first, -, hn⟩ := Option.bind_eq_some_iff.mp hn
      cases hn
      exact hself
  | compared req first =>
    simp only [receivePhase] at hn
    split_ifs at hn
    · cases hn
      exact hself
    · obtain ⟨b, -, hn⟩ := Option.bind_eq_some_iff.mp hn
      cases hn
      obtain ⟨hg, hc, -⟩ := RaftJournal.good_removeEntries h first .reopen
      exact ⟨hg, hc.1⟩
  | appending index entries commitIndex =>
    cases entries with
    | nil =>
      cases hn
      exact hself
    | cons entry rest =>
      obtain ⟨ok, -, hn⟩ := Option.bind_eq_some_iff.mp hn
      cases hn
      exact ⟨(grows_append h index entry).good, (grows_append h index entry).commit_le⟩
  | appended commitIndex =>
    obtain ⟨b, -, hn⟩ := Option.bind_eq_some_iff.mp hn
    cases hn
    exact ⟨(grows_setCommitIndex h _).good, (grows_setCommitIndex h _).commit_le⟩

theorem commit_le_next (h : RaftJournal.Good n.journal) {x : TrackStep} (hn : n.next x = some n') :
    RaftJournal.Good n'.journal ∧ n.journal.commitIndex ≤ n'.journal.commitIndex := by
  have hself : RaftJournal.Good n.journal ∧ n.journal.commitIndex ≤ n.journal.commitIndex :=
    ⟨h, le_refl _⟩
  cases x with
  | detach queue =>
    cases hn
    exact hself
  | response queue raw =>
    obtain ⟨q, -, hn⟩ := Option.bind_eq_some_iff.mp hn
    cases hn
    exact hself
  | read queue tx =>
    simp only [next] at hn
    split_ifs at hn
    · cases hn
      exact hself
    · obtain ⟨q, -, hn⟩ := Option.bind_eq_some_iff.mp hn
      cases hn
      exact hself
  | append queue index term tx =>
    simp only [next] at hn
    split_ifs at hn
    · obtain ⟨ok, -, hn⟩ := Option.bind_eq_some_iff.mp hn
      split_ifs at hn
      · cases hn
        exact ⟨(grows_append h index _).good, (grows_append h index _).commit_le⟩
      · cases hn
        exact hself
    · cases hn
      exact hself
  | insertBlocked =>
    simp only [next] at hn
    split at hn <;> cases hn <;> exact hself
  | addPending =>
    simp only [next] at hn
    split at hn
    · obtain ⟨q, -, hn⟩ := Option.bind_eq_some_iff.mp hn
      cases hn
      exact hself
    · cases hn
      exact hself
  | beginReceive req =>
    simp only [next] at hn
    split_ifs at hn <;> cases hn <;> exact hself
  | receive =>
    simp only [next] at hn
    split at hn
    · exact commit_le_receivePhase h hn
    · cases hn
      exact hself
  | flushQueues =>
    simp only [next] at hn
    split_ifs at hn <;> cases hn <;> exact hself
  | appendOwn index entry =>
    obtain ⟨b, -, hn⟩ := Option.bind_eq_some_iff.mp hn
    cases hn
    exact ⟨(grows_append h index entry).good, (grows_append h index entry).commit_le⟩
  | setCurrentTerm term vote =>
    obtain ⟨b, -, hn⟩ := Option.bind_eq_some_iff.mp hn
    cases hn
    exact ⟨(grows_setCurrentTerm h term vote).good, (grows_setCurrentTerm h term vote).commit_le⟩
  | setCommitIndex index =>
    obtain ⟨b, -, hn⟩ := Option.bind_eq_some_iff.mp hn
    cases hn
    exact ⟨(grows_setCommitIndex h index).good, (grows_setCommitIndex h index).commit_le⟩
  | trimUntil newLogStart =>
    obtain ⟨b, -, hn⟩ := Option.bind_eq_some_iff.mp hn
    cases hn
    exact ⟨(grows_trimUntil h newLogStart).good, (grows_trimUntil h newLogStart).commit_le⟩
  | readCommitIndex =>
    cases hn
    exact hself
  | beginApply =>
    simp only [next] at hn
    split_ifs at hn <;> cases hn <;> exact hself
  | applySingleCommit =>
    simp only [next] at hn
    split at hn
    · cases hn
      exact hself
    split_ifs at hn
    · cases hn
      exact hself
    · obtain ⟨m, hm, hn⟩ := Option.bind_eq_some_iff.mp hn
      cases hn
      rw [show ({ m with applying := _ } : TrackedNode).journal = n.journal from applyIndex_journal hm]
      exact hself

end TrackedNode

namespace Replica

open TrackedNode PendingQueue

section

variable {doubles : Doubles} {reads : Store → RedisRequest → Except Fault Bytes} {known : Known}

/-! ## One entry is applied -/

/-- A read leaves the state machine alone. -/
theorem dispatchTransaction_read {m m' : Machine} {tx : Transaction} {index : Int} {reply : Bytes}
    (hw : tx.containsWrites = false)
    (h : dispatchTransaction doubles (fromStore reads) m tx index = .ok (reply, m')) : m' = m := by
  unfold dispatchTransaction commitAfter at h
  rw [hw] at h
  obtain ⟨⟨resp, s⟩, -, h⟩ := ok_of_bind h
  cases h
  rfl

/-- The queue applies at most one write, the one with the committed index, and keeps what
comes after it. -/
theorem dispatchPending_ok {commitIndex : Int} {m m' : Machine} {a a' : Applied} {found : Bool}
    {pending left : List PendingRequest} {newBlockingIndex : Int} (hp : ∀ p ∈ pending, Proper p)
    (ha : dispatchLoop commitIndex a found pending = .ok (a', left, newBlockingIndex))
    (hm : dispatchPending doubles reads commitIndex m found pending = .ok m') :
    ∃ done, pending = done ++ left ∧ (∀ p ∈ done, 0 < p.index → p.index = commitIndex) ∧
      ((a' = a ∧ m' = m ∧ ∀ p ∈ done, p.index ≤ 0) ∨
        found = false ∧ 0 < commitIndex ∧ ∃ tx reply, ClientWrite tx ∧
          a.dispatch tx.toRedisRequest commitIndex = .ok a' ∧
          dispatchTransaction doubles (fromStore reads) m tx commitIndex = .ok (reply, m')) := by
  induction pending generalizing m a found with
  | nil =>
    unfold dispatchLoop at ha
    unfold dispatchPending at hm
    split at ha
    · rename_i hf
      rw [if_pos hf] at hm
      cases ha
      cases hm
      exact ⟨[], rfl, by simp, .inl ⟨rfl, rfl, by simp⟩⟩
    · cases ha
  | cons req rest ih =>
    have hreq := hp req List.mem_cons_self
    have hrest : ∀ p ∈ rest, Proper p := fun p hm => hp p (List.mem_cons_of_mem req hm)
    -- the request goes, and neither state machine changes
    have hpass : req.index ≤ 0 →
        dispatchLoop commitIndex a found rest = .ok (a', left, newBlockingIndex) →
        dispatchPending doubles reads commitIndex m found rest = .ok m' →
        ∃ done, req :: rest = done ++ left ∧
          (∀ p ∈ done, 0 < p.index → p.index = commitIndex) ∧
          ((a' = a ∧ m' = m ∧ ∀ p ∈ done, p.index ≤ 0) ∨
            found = false ∧ 0 < commitIndex ∧ ∃ tx reply, ClientWrite tx ∧
              a.dispatch tx.toRedisRequest commitIndex = .ok a' ∧
              dispatchTransaction doubles (fromStore reads) m tx commitIndex =
                .ok (reply, m')) := by
      intro hle ha hm
      obtain ⟨done, hdone, hindex, h⟩ := ih hrest ha hm
      refine ⟨req :: done, by rw [hdone]; rfl, ?_, ?_⟩
      · intro p hp h0
        rcases List.mem_cons.mp hp with rfl | hp
        · omega
        · exact hindex p hp h0
      · rcases h with ⟨h1, h2, h3⟩ | h
        · refine .inl ⟨h1, h2, fun p hp => ?_⟩
          rcases List.mem_cons.mp hp with rfl | hp
          · exact hle
          · exact h3 p hp
        · exact .inr h
    unfold dispatchLoop at ha
    unfold dispatchPending at hm
    by_cases h1 : commitIndex < req.index
    · rw [if_pos h1] at ha hm
      cases ha
      cases hm
      exact ⟨[], rfl, by simp, .inl ⟨rfl, rfl, by simp⟩⟩
    rw [if_neg h1] at ha hm
    by_cases h2 : req.rawResp ≠ []
    · rw [if_pos h2] at ha hm
      exact hpass (not_lt.mp fun h0 => h2 (hreq.1 h0).2) ha hm
    rw [if_neg h2] at ha hm
    by_cases h3 : 0 < req.index
    · rw [if_pos h3] at ha
      split_ifs at ha with h4 h5
      have hfound : found = false := by simpa using h4
      rw [if_neg (by rw [hfound]; simp), if_neg fun h => h5 h.2] at hm
      have heq : req.index = commitIndex := not_not.mp h5
      obtain ⟨⟨reply, m1⟩, hm1, hm⟩ := ok_of_bind hm
      rcases ha1 : a.dispatch req.tx.toRedisRequest req.index with e | a1
      · rw [ha1] at ha
        cases ha
      rw [ha1] at ha
      -- from here on no write is left
      have hall : (found || decide (0 < req.index)) = true := by simp [h3]
      dsimp only at hm
      rw [hall] at hm
      obtain ⟨done, hdone, hindex, h⟩ := ih hrest ha hm
      rcases h with ⟨rfl, rfl, -⟩ | ⟨hf, -⟩
      · refine ⟨req :: done, by rw [hdone]; rfl, ?_, .inr ⟨hfound, by omega, req.tx, reply, ?_⟩⟩
        · intro p hp h0
          rcases List.mem_cons.mp hp with rfl | hp
          · exact heq
          · exact hindex p hp h0
        · rw [heq] at ha1 hm1
          exact ⟨(hreq.1 h3).1, ha1, hm1⟩
      · cases hf
    · rw [if_neg h3] at ha
      rw [if_neg fun h => h3 h.1, if_neg fun h => h3 h.1] at hm
      obtain ⟨⟨reply, m1⟩, hm1, hmore⟩ := ok_of_bind hm
      have hread := dispatchTransaction_read (hreq.2 (not_lt.mp h3)) hm1
      have hsame : (found || decide (0 < req.index)) = found := by simp [h3]
      dsimp only at hmore
      rw [hsame, hread] at hmore
      exact hpass (not_lt.mp h3) ha hmore

/-- What `applySingleCommit` applies, whether it comes from a queue or from the journal. -/
theorem applySingleCommit_ok {r : Replica} {n' : TrackedNode} {index : Int} {machine : Machine}
    (ht : Tracked known r.node) (hwait : Waiting r.node) (hw : r.node.writing = none)
    (h0 : 0 < index) (hm : r.applySingleCommit doubles reads index = some machine)
    (hn : r.node.applyIndex index = some n') :
    Waiting n' ∧ ∃ request reply,
      dispatch doubles (fromStore reads) r.machine request index = .ok (reply, machine) ∧
      r.node.machine.dispatch request index = .ok n'.machine := by
  unfold applySingleCommit at hm
  unfold applyIndex at hn
  rcases hl : r.node.blockedWrites.lookup index with _ | queue <;> rw [hl] at hm hn
  · obtain ⟨entry, he, hm⟩ := Option.bind_eq_some_iff.mp hm
    obtain ⟨⟨reply, m⟩, hd, hm⟩ := Option.bind_eq_some_iff.mp hm
    obtain ⟨entry', he', hn⟩ := Option.bind_eq_some_iff.mp hn
    obtain ⟨a, ha, hn⟩ := Option.bind_eq_some_iff.mp hn
    cases hm
    cases hn
    rw [he] at he'
    cases he'
    exact ⟨waiting_congr hwait rfl rfl rfl, entry.request, reply, orDie_some hd, orDie_some ha⟩
  · obtain ⟨⟨a, left, newBlockingIndex⟩, hd, hn⟩ := Option.bind_eq_some_iff.mp hn
    have hloop := orDie_some hd
    obtain ⟨done, hdone, hindex, h⟩ :=
      dispatchPending_ok (fun p hp => hwait.proper queue p hp) hloop (orDie_some hm)
    obtain ⟨-, hb, -⟩ := dispatchLoop_ok hloop
    -- the write that is waited for is in the queue, and not behind the index
    obtain ⟨p, hp, hpi⟩ : ∃ p ∈ writesOf (r.node.queues queue), p.index = index := by
      rcases hwait.answered index queue hl with h | ⟨tx, hw'⟩
      · exact h
      · exact (not_some_of_none hw hw').elim
    have hpdone : p ∈ done := by
      have hmem := List.mem_of_mem_filter hp
      rw [hdone, List.mem_append] at hmem
      rcases hmem with hmem | hmem
      · exact hmem
      · have := (lt_of_mem_left ht hdone hb hmem (by omega)).1
        omega
    obtain ⟨tx, reply, hwrite, ha, hm⟩ : ∃ tx reply, ClientWrite tx ∧
        r.node.machine.dispatch tx.toRedisRequest index = .ok a ∧
        dispatchTransaction doubles (fromStore reads) r.machine tx index =
          .ok (reply, machine) := by
      rcases h with ⟨-, -, hle⟩ | ⟨-, -, h⟩
      · have := hle p hpdone
        omega
      · exact h
    rw [← dispatch_toRedisRequest doubles (fromStore reads) hwrite.writes hwrite.fits] at hm
    -- a queue that is still blocked has the write it waits for among what is left
    have hmem : ∀ p ∈ writesOf (r.node.queues queue), p.index ≠ index →
        p ∈ writesOf { r.node.queues queue with pending := left } := by
      intro p hp hne
      obtain ⟨hp, h0'⟩ := List.mem_filter.mp hp
      rw [hdone, List.mem_append] at hp
      rcases hp with hp | hp
      · exact absurd (hindex p hp (by simpa using h0')) hne
      · exact List.mem_filter.mpr ⟨hp, h0'⟩
    have hwaiting : ∀ blockedWrites : RaftBlockedWrites,
        (∀ i k, blockedWrites.lookup i = some k →
          (i ≠ index ∧ r.node.blockedWrites.lookup i = some k) ∨
          (k = queue ∧ ∃ p ∈ writesOf { r.node.queues queue with pending := left }, p.index = i)) →
        Waiting { r.node.setQueue queue { r.node.queues queue with pending := left } with
          machine := a, blockedWrites } := by
      intro blockedWrites hb
      refine ⟨fun k p hp => ?_, fun i k hl' => .inl ?_, hwait.writing⟩
      · have hp : p ∈ (if k = queue then { r.node.queues queue with pending := left }
          else r.node.queues k).pending := hp
        split at hp
        · refine hwait.proper queue p ?_
          rw [hdone]
          exact List.mem_append_right _ hp
        · exact hwait.proper k p hp
      · show ∃ p ∈ writesOf (if k = queue then { r.node.queues queue with pending := left }
          else r.node.queues k), p.index = i
        rcases hb i k hl' with ⟨hi, hl'⟩ | ⟨rfl, hp⟩
        · rcases hwait.answered i k hl' with ⟨p', hp', hpi'⟩ | ⟨tx, hw'⟩
          · split
            · rename_i hk
              rw [hk] at hp'
              exact ⟨p', hmem p' hp' (by omega), hpi'⟩
            · exact ⟨p', hp', hpi'⟩
          · exact (not_some_of_none hw hw').elim
        · rw [if_pos rfl]
          exact hp
    have herase : ∀ i k, (r.node.blockedWrites.erase index).lookup i = some k →
        i ≠ index ∧ r.node.blockedWrites.lookup i = some k := by
      intro i k hl'
      by_cases hi : i = index
      · rw [hi, AList.lookup_erase] at hl'
        cases hl'
      · rw [AList.lookup_erase_ne hi] at hl'
        exact ⟨hi, hl'⟩
    simp only at hn
    split_ifs at hn with h1 h2
    · cases hn
      refine ⟨hwaiting _ fun i k hl' => ?_, _, reply, hm, ha⟩
      by_cases hi : i = newBlockingIndex
      · rw [hi, AList.lookup_insert] at hl'
        cases hl'
        obtain ⟨p, rest, hleft, -, hpi⟩ : ∃ p rest, left = p :: rest ∧ index < p.index ∧
            newBlockingIndex = p.index := by
          rcases hb with ⟨-, hneg⟩ | hb
          · omega
          · exact hb
        refine .inr ⟨rfl, p, List.mem_filter.mpr ⟨?_, ?_⟩, by omega⟩
        · rw [hleft]
          exact List.mem_cons_self
        · exact decide_eq_true (by omega)
      · rw [AList.lookup_insert_ne hi] at hl'
        exact .inl (herase i k hl')
    · cases hn
      exact ⟨hwaiting _ fun i k hl' => .inl (herase i k hl'), _, reply, hm, ha⟩

/-! ## What is on disk is what was applied -/

/-- The state machine has applied the history, one index after the other, to the one that
the run started on; and so had the one that each batch on disk leads to. -/
structure Exact (doubles : Doubles) (reads : Store → RedisRequest → Except Fault Bytes)
    (first : Machine) (known : Known) (r : Replica) : Prop where
  tracked : Tracked known r.node
  waiting : Waiting r.node
  first_nonneg : 0 ≤ first.lastApplied
  positive : ∀ e ∈ r.node.machine.history, 0 < e.1
  last : r.node.machine.lastApplied = r.machine.lastApplied
  restorable : r.machine.Restorable
  replayed : ∃ m, replay doubles reads first r.node.machine.history = .ok m ∧
    SameMachine m r.machine
  next : ∀ a, r.node.applying = some a → a.index = r.machine.lastApplied + 1
  kept : ∀ b ∈ r.disk, b.history <+: r.node.machine.history
  older : r.disk.Pairwise fun b b' => b'.history <+: b.history
  disk : ∀ b ∈ r.disk, ∃ m m', replay doubles reads first b.history = .ok m ∧
    reopen { store := b.store, expirationCache := [], lastApplied := 0 } = .ok m' ∧
    SameMachine m m'

variable {first : Machine} {r r' : Replica}

theorem Exact.consecutive (h : Exact doubles reads first known r) :
    r.machine.lastApplied = first.lastApplied + r.node.machine.history.length ∧
      r.node.machine.history.map Prod.fst =
        (List.range r.node.machine.history.length).map fun k : Nat => first.lastApplied + 1 + k := by
  obtain ⟨m, hm, hs⟩ := h.replayed
  rw [hs.2]
  exact replay_consecutive doubles reads h.positive hm

/-- A step of the node that applies nothing. -/
theorem exact_track (h : Exact doubles reads first known r) {x : TrackStep} {node : TrackedNode}
    (hx : x ≠ .applySingleCommit)
    (hwrite : ∀ queue index term tx, x = .append queue index term tx → ClientWrite tx)
    (hn : r.node.next x = some node) : Exact doubles reads first known { r with node } := by
  obtain ⟨hm, ha⟩ := next_machine hx hn
  refine ⟨tracked_next h.tracked hn, waiting_next h.tracked h.waiting hx hwrite hn, h.first_nonneg,
    ?_, ?_, h.restorable, ?_, fun a hap => ?_, ?_, h.older, h.disk⟩
  · rw [hm]
    exact h.positive
  · rw [hm]
    exact h.last
  · rw [hm]
    exact h.replayed
  · rcases ha a hap with hap | hi
    · exact h.next a hap
    · rw [hi, h.last]
  · rw [hm]
    exact h.kept

/-- What is on disk after a batch. -/
theorem exact_apply (h : Exact doubles reads first known r) {a : Applying} {machine : Machine}
    {node : TrackedNode} (hap : r.node.applying = some a) (hle : a.index ≤ a.commitIndex)
    (hfits : r.node.journal.commitIndex < 2 ^ 63)
    (hm : r.applySingleCommit doubles reads a.index = some machine)
    (hn : r.node.next .applySingleCommit = some node) :
    Exact doubles reads first known {
      node
      machine
      disk := { store := machine.store, history := node.machine.history } :: r.disk } := by
  have hw : r.node.writing = none := by
    by_contra hh
    exact not_some_of_none (h.tracked.one_holds hh).2 hap
  have hi := h.next a hap
  have hc := h.tracked.applying_le a hap
  have hlen := h.consecutive.1
  have hfirst := h.first_nonneg
  have ht := tracked_next h.tracked hn
  simp only [TrackedNode.next, hap, if_neg (not_lt.mpr hle)] at hn
  obtain ⟨n, hn1, hn⟩ := Option.bind_eq_some_iff.mp hn
  cases hn
  have h0 : 0 < a.index := by omega
  obtain ⟨hwait, request, reply, hd, ha⟩ :=
    applySingleCommit_ok h.tracked h.waiting hw h0 hm hn1
  obtain ⟨hmachine, -⟩ := dispatch_ok h0 ha
  obtain ⟨-, hlast, -⟩ := dispatch_lastApplied doubles reads h0 hd
  obtain ⟨m, hreplay, hsame⟩ := h.replayed
  have hrest := restorable_dispatch doubles reads h.restorable h0 (by omega) hd
  -- the replay takes the same step
  have hback : SameMachine r.machine m :=
    ⟨⟨hsame.1.store.symm, rfl, rfl, hsame.1.cache.symm, hsame.1.right, hsame.1.left⟩, hsame.2.symm⟩
  obtain ⟨m1, hd1, hs1⟩ := hback.dispatch doubles reads h0 hd
  have hsame1 : SameMachine m1 machine :=
    ⟨⟨hs1.1.store.symm, rfl, rfl, hs1.1.cache.symm, hs1.1.right, hs1.1.left⟩, hs1.2.symm⟩
  have hhistory : n.machine.history = r.node.machine.history ++ [(a.index, request)] := by
    rw [hmachine]
  have hreplay1 : replay doubles reads first n.machine.history = .ok m1 := by
    rw [hhistory]
    exact replay_snoc doubles reads hreplay hd1
  have hprefix : r.node.machine.history <+: n.machine.history := by
    rw [hhistory]
    exact List.prefix_append _ _
  refine ⟨ht, waiting_congr hwait rfl rfl rfl, h.first_nonneg, ?_, ?_, hrest, ⟨m1, hreplay1, hsame1⟩,
    ?_, ?_, ?_, ?_⟩
  · intro e he
    have he : e ∈ n.machine.history := he
    rw [hhistory, List.mem_append, List.mem_singleton] at he
    rcases he with he | rfl
    · exact h.positive e he
    · exact h0
  · show n.machine.lastApplied = machine.lastApplied
    rw [hmachine, hlast]
  · rintro b ⟨⟩
    show a.index + 1 = machine.lastApplied + 1
    rw [hlast]
  · intro b hb
    rcases List.mem_cons.mp hb with rfl | hb
    · exact List.prefix_refl _
    · exact (h.kept b hb).trans hprefix
  · exact List.pairwise_cons.mpr ⟨fun b hb => (h.kept b hb).trans hprefix, h.older⟩
  · intro b hb
    rcases List.mem_cons.mp hb with rfl | hb
    · obtain ⟨m2, hopen, hs2⟩ := reopen_same hrest
      exact ⟨m1, m2, hreplay1, hopen, hsame1.trans hs2⟩
    · exact h.disk b hb

/-- A node that starts: nothing waits, and what its state machine has applied is committed. -/
theorem tracked_boot {j : RaftJournal} {applied : Applied} (hg : RaftJournal.Good j)
    (hle : applied.lastApplied ≤ j.commitIndex)
    (happlied : ∀ i r, (i, r) ∈ applied.history → i ≤ applied.lastApplied ∧ TrackedNode.Holds known j i r)
    (hknown : ∀ i r, known i = some r →
      i ≤ j.commitIndex ∧ ∀ e, j.db.entries i = some e → e.request = r) :
    Tracked known { startOn j applied.lastApplied with machine := applied } := by
  refine ⟨hg, hle, le_refl _, ?_, ?_, happlied, fun hh => absurd rfl hh, ?_, ?_, ?_, hknown⟩
  · intro k p hp
    exact absurd hp List.not_mem_nil
  · intro k
    exact List.Pairwise.nil
  · rintro w ⟨⟩
  · rintro r ⟨⟩
  · rintro a ⟨⟩

theorem waiting_boot (j : RaftJournal) (lastApplied : Int) (applied : Applied) :
    Waiting { startOn j lastApplied with machine := applied } := by
  refine ⟨fun k p hp => absurd hp List.not_mem_nil, fun i k hl => ?_, ?_⟩
  · have hl : (∅ : RaftBlockedWrites).lookup i = some k := hl
    rw [AList.lookup_empty] at hl
    cases hl
  · rintro k i tx (hw | hw) <;> cases hw

/-- The state machine and the disk after the process has started. -/
theorem exact_boot {j : RaftJournal} {disk : List Batch} (hfirst : 0 ≤ first.lastApplied)
    (hpositive : ∀ b ∈ disk, ∀ e ∈ b.history, 0 < e.1)
    (holder : disk.Pairwise fun b b' => b'.history <+: b.history)
    (hdisk : ∀ b ∈ disk, ∃ m m', replay doubles reads first b.history = .ok m ∧
      reopen { store := b.store, expirationCache := [], lastApplied := 0 } = .ok m' ∧
      SameMachine m m')
    (hr : boot j disk = some r)
    (htracked : r.node.machine.lastApplied = r.machine.lastApplied →
      Tracked known r.node) : Exact doubles reads first known r := by
  rcases disk with _ | ⟨batch, older⟩
  · cases hr
  obtain ⟨machine, hopen, hr⟩ := Option.bind_eq_some_iff.mp hr
  cases hr
  obtain ⟨m, m', hreplay, hopen', hsame⟩ := hdisk batch List.mem_cons_self
  rw [orDie_some hopen] at hopen'
  cases hopen'
  have hrest := restorable_of_reopen (orDie_some hopen)
  obtain ⟨m1, hagain, hs1⟩ := reopen_same hrest
  refine ⟨htracked rfl, waiting_boot _ _ _, hfirst, hpositive batch List.mem_cons_self, rfl, hrest,
    ⟨m, hreplay, hsame⟩, nofun, ?_, ?_, ?_⟩
  · intro b hb
    rcases List.mem_cons.mp hb with rfl | hb
    · exact List.prefix_refl _
    rcases List.mem_cons.mp hb with rfl | hb
    · exact List.prefix_refl _
    rcases List.mem_cons.mp hb with rfl | hb
    · exact List.prefix_refl _
    · exact (List.pairwise_cons.mp holder).1 b hb
  · have hall : ∀ b ∈ batch :: older, b.history <+: batch.history := by
      intro b hb
      rcases List.mem_cons.mp hb with rfl | hb
      · exact List.prefix_refl _
      · exact (List.pairwise_cons.mp holder).1 b hb
    refine List.pairwise_cons.mpr ⟨fun b hb => ?_, List.pairwise_cons.mpr ⟨hall, holder⟩⟩
    rcases List.mem_cons.mp hb with rfl | hb
    · exact List.prefix_refl _
    · exact hall b hb
  · intro b hb
    rcases List.mem_cons.mp hb with rfl | hb
    · exact ⟨m, m1, hreplay, hagain, hsame.trans hs1⟩
    rcases List.mem_cons.mp hb with rfl | hb
    · exact ⟨m, machine, hreplay, reopen_clocked rfl rfl (orDie_some hopen), hsame⟩
    · exact hdisk b hb

/-- A crash, and the next start. -/
theorem exact_crash (h : Exact doubles reads first known r) {lost : Nat}
    (hn : r.next doubles reads (.crash lost) = some r') : Exact doubles reads first known r' := by
  obtain ⟨j, hj, hn⟩ := Option.bind_eq_some_iff.mp hn
  have hj := orDie_some hj
  have hsub : (r.disk.drop lost).Sublist r.disk := List.drop_sublist _ _
  have hlen := h.consecutive.1
  refine exact_boot h.first_nonneg (fun b hb e he => ?_) (h.older.sublist hsub)
    (fun b hb => h.disk b (hsub.subset hb)) hn fun hlast => ?_
  · exact h.positive e ((h.kept b (hsub.subset hb)).subset he)
  -- the journal is what it was
  have hjournal := (RaftJournal.reopen_ok h.tracked.good hj).1
  have hcommit : j.commitIndex = r.node.journal.commitIndex := by rw [hjournal]
  have hentries : j.db.entries = r.node.journal.db.entries := by rw [hjournal]
  rcases hd : r.disk.drop lost with _ | ⟨batch, older⟩ <;> rw [hd] at hn hsub
  · cases hn
  obtain ⟨machine, hopen, hn⟩ := Option.bind_eq_some_iff.mp hn
  cases hn
  have hmem := hsub.subset List.mem_cons_self
  obtain ⟨m, m', hreplay, hopen', hsame⟩ := h.disk batch hmem
  rw [orDie_some hopen] at hopen'
  cases hopen'
  have hkept := h.kept batch hmem
  obtain ⟨hm, hmap⟩ := replay_consecutive doubles reads
    (fun e he => h.positive e (hkept.subset he)) hreplay
  have hle := hkept.length_le
  have happlied_le := h.tracked.applied_le
  rw [h.last] at happlied_le
  refine tracked_boot (RaftJournal.good_reopen h.tracked.good hj) ?_ (fun i req hi => ?_)
    fun i req hk => ?_
  · show machine.lastApplied ≤ j.commitIndex
    rw [hsame.2, hcommit]
    omega
  · have hi : (i, req) ∈ batch.history := hi
    refine ⟨?_, ?_⟩
    · have hi1 : i ∈ batch.history.map Prod.fst := List.mem_map_of_mem (f := Prod.fst) hi
      rw [hmap, List.mem_map] at hi1
      obtain ⟨k, hk, rfl⟩ := hi1
      have hk := List.mem_range.mp hk
      show _ ≤ machine.lastApplied
      rw [hsame.2]
      omega
    · obtain ⟨-, hh⟩ := h.tracked.applied i req (hkept.subset hi)
      refine ⟨fun e he => hh.1 e ?_, hh.2⟩
      rw [← hentries]
      exact he
  · obtain ⟨h1, h2⟩ := h.tracked.known_committed i req hk
    rw [hcommit, hentries]
    exact ⟨h1, h2⟩

/-! ## Whole runs -/

/-- The text of each transaction that is appended fits into a string. -/
def Fits (x : ReplicaStep) : Prop :=
  ∀ queue index term tx, x = .track (.append queue index term tx) → tx.serialize.length < 2 ^ 63

theorem exact_next (h : Exact doubles reads first known r) {x : ReplicaStep} (hx : Fits x)
    (hfits : r.node.journal.commitIndex < 2 ^ 63) (hn : r.next doubles reads x = some r') :
    Exact doubles reads first known r' := by
  cases x with
  | crash lost => exact exact_crash h hn
  | track x =>
    by_cases happly : x = .applySingleCommit
    · subst happly
      simp only [next] at hn
      split at hn
      · cases hn
        exact h
      rename_i a hap
      split at hn
      · rename_i hdone
        obtain ⟨node, hnode, hn⟩ := Option.bind_eq_some_iff.mp hn
        cases hn
        have ht := tracked_next h.tracked hnode
        simp only [TrackedNode.next, hap, if_pos hdone] at hnode
        cases hnode
        exact { h with
          tracked := ht
          waiting := waiting_congr h.waiting rfl rfl rfl
          next := fun a h => by cases h }
      · rename_i hle
        obtain ⟨machine, hm, hn⟩ := Option.bind_eq_some_iff.mp hn
        obtain ⟨node, hnode, hn⟩ := Option.bind_eq_some_iff.mp hn
        cases hn
        exact exact_apply h hap (not_lt.mp hle) hfits hm hnode
    · by_cases hw : ∀ queue index term tx, x = .append queue index term tx → tx.containsWrites
      · have hnode : ∃ node, r.node.next x = some node ∧ r' = { r with node } := by
          unfold next at hn
          split at hn
          · rename_i he
            cases he
            rw [if_pos (hw _ _ _ _ rfl)] at hn
            obtain ⟨node, hnode, hn⟩ := Option.bind_eq_some_iff.mp hn
            cases hn
            exact ⟨node, hnode, rfl⟩
          · rename_i he
            cases he
            exact absurd rfl happly
          · rename_i he
            cases he
            obtain ⟨node, hnode, hn⟩ := Option.bind_eq_some_iff.mp hn
            cases hn
            exact ⟨node, hnode, rfl⟩
          · rename_i he
            cases he
        obtain ⟨node, hnode, rfl⟩ := hnode
        refine exact_track h happly (fun queue index term tx he => ⟨hw _ _ _ _ he, ?_⟩) hnode
        exact hx queue index term tx (congrArg ReplicaStep.track he)
      · push Not at hw
        obtain ⟨queue, index, term, tx, rfl, hw⟩ := hw
        simp only [next] at hn
        rw [if_neg hw] at hn
        cases hn
        exact h

/-- The commit index never goes back, nor in a crash. -/
theorem commit_le_step (h : RaftJournal.Good r.node.journal) {x : ReplicaStep}
    (hn : r.next doubles reads x = some r') :
    RaftJournal.Good r'.node.journal ∧ r.node.journal.commitIndex ≤ r'.node.journal.commitIndex := by
  have hself : RaftJournal.Good r.node.journal ∧
      r.node.journal.commitIndex ≤ r.node.journal.commitIndex := ⟨h, le_refl _⟩
  unfold next at hn
  split at hn
  · split at hn
    · obtain ⟨node, hnode, hn⟩ := Option.bind_eq_some_iff.mp hn
      cases hn
      exact commit_le_next h hnode
    · cases hn
      exact hself
  · split at hn
    · cases hn
      exact hself
    split at hn
    · obtain ⟨node, hnode, hn⟩ := Option.bind_eq_some_iff.mp hn
      cases hn
      exact commit_le_next h hnode
    · obtain ⟨machine, -, hn⟩ := Option.bind_eq_some_iff.mp hn
      obtain ⟨node, hnode, hn⟩ := Option.bind_eq_some_iff.mp hn
      cases hn
      exact commit_le_next h hnode
  · obtain ⟨node, hnode, hn⟩ := Option.bind_eq_some_iff.mp hn
    cases hn
    exact commit_le_next h hnode
  · rename_i lost
    obtain ⟨j, hj, hn⟩ := Option.bind_eq_some_iff.mp hn
    have hj := orDie_some hj
    rcases hd : r.disk.drop lost with _ | ⟨batch, older⟩ <;> rw [hd] at hn
    · cases hn
    obtain ⟨machine, -, hn⟩ := Option.bind_eq_some_iff.mp hn
    cases hn
    refine ⟨RaftJournal.good_reopen h hj, ?_⟩
    show r.node.journal.commitIndex ≤ j.commitIndex
    rw [(RaftJournal.reopen_ok h hj).1]

theorem commit_le_runAll (h : RaftJournal.Good r.node.journal) {xs : List ReplicaStep}
    (hn : r.runAll doubles reads xs = some r') :
    RaftJournal.Good r'.node.journal ∧ r.node.journal.commitIndex ≤ r'.node.journal.commitIndex := by
  induction xs generalizing r with
  | nil =>
    cases hn
    exact ⟨h, le_refl _⟩
  | cons x xs ih =>
    obtain ⟨r1, h1, hn⟩ := Option.bind_eq_some_iff.mp hn
    obtain ⟨hg, hle⟩ := commit_le_step h h1
    obtain ⟨hg', hle'⟩ := ih hg hn
    exact ⟨hg', le_trans hle hle'⟩

theorem exact_runAll (h : Exact doubles reads first known r) {xs : List ReplicaStep}
    (hx : ∀ x ∈ xs, Fits x) (hfits : r'.node.journal.commitIndex < 2 ^ 63)
    (hn : r.runAll doubles reads xs = some r') : Exact doubles reads first known r' := by
  induction xs generalizing r with
  | nil =>
    cases hn
    exact h
  | cons x xs ih =>
    have hle := (commit_le_runAll h.tracked.good hn).2
    obtain ⟨r1, h1, hn⟩ := Option.bind_eq_some_iff.mp hn
    refine ih (exact_next h (hx x List.mem_cons_self) (by omega) h1) (fun y hy => ?_) hn
    exact hx y (List.mem_cons_of_mem x hy)

end

/-- In every run, with crashes that lose batches, each index is applied once, right after the
one before it. The store is the result of applying to the first store what the journal held
when it was committed, up to `lastApplied`, which is what the store says it is; and the next
index is one that the state machine takes. -/
theorem each_index_is_applied_once_and_in_order (doubles : Doubles)
    (reads : Store → RedisRequest → Except Fault Bytes)
    {clusterID : RaftClusterID} {nodes : List RaftServer} {startIndex : Int} {new : RaftJournal}
    (h0 : 0 ≤ startIndex) (hnew : RaftJournal.obliterate clusterID nodes startIndex = .ok new)
    (calls : List RaftJournal.JournalCall) {store : Store} {start a b : Replica}
    (hstart : boot (new.afterAll calls) [{ store, history := [] }] = some start)
    (hfirst : 0 ≤ start.machine.lastApplied)
    (hle : start.machine.lastApplied ≤ (new.afterAll calls).commitIndex)
    {before after : List ReplicaStep} (hx : ∀ x ∈ before ++ after, Fits x)
    (ha : start.runAll doubles reads before = some a)
    (hb : a.runAll doubles reads after = some b) (hfits : b.node.journal.commitIndex < 2 ^ 63) :
    (b.machine.lastApplied = start.machine.lastApplied + b.node.machine.history.length ∧
      b.node.machine.history.map Prod.fst = (List.range b.node.machine.history.length).map
        fun k : Nat => start.machine.lastApplied + 1 + k) ∧
    (∃ m, replay doubles reads start.machine b.node.machine.history = .ok m ∧
      m.store = b.machine.store) ∧
    (∃ bytes, b.machine.store.lookup .lastApplied = some bytes ∧
      ofBigInt bytes = b.machine.lastApplied) ∧
    (∀ i r, (i, r) ∈ b.node.machine.history → i ≤ b.node.journal.commitIndex) ∧
    (∀ i, a.node.journal.logStart ≤ i → i ≤ a.node.journal.commitIndex →
      ∃ e, a.node.journal.fetch i = some e ∧
        ∀ r, (i, r) ∈ b.node.machine.history → r = e.request) ∧
    ∀ applying s, b.node.applying = some applying →
      ∃ m, commitTransaction b.machine s applying.index = .ok m := by
  have hgood := RaftJournal.good_afterAll (RaftJournal.good_obliterate h0 hnew) calls
  have hopen : reopen { store, expirationCache := [], lastApplied := 0 } = .ok start.machine := by
    obtain ⟨machine, hopen, hstart⟩ := Option.bind_eq_some_iff.mp hstart
    cases hstart
    exact orDie_some hopen
  have hexact : Exact doubles reads start.machine (fun _ => none) start := by
    refine exact_boot hfirst (fun b hb e he => ?_) (List.pairwise_singleton _ _) (fun b hb => ?_)
      hstart fun hlast => ?_
    · rw [List.mem_singleton.mp hb] at he
      cases he
    · rw [List.mem_singleton.mp hb]
      exact ⟨_, _, rfl, hopen, sameMachine_refl (restorable_of_reopen hopen)⟩
    · obtain ⟨machine, -, hstart⟩ := Option.bind_eq_some_iff.mp hstart
      cases hstart
      exact tracked_boot hgood hle nofun nofun
  have hexact_a : Exact doubles reads start.machine (fun _ => none) a := by
    have hga := (commit_le_runAll hexact.tracked.good ha).1
    have hcommit := (commit_le_runAll hga hb).2
    exact exact_runAll hexact (fun x hm => hx x (List.mem_append_left _ hm)) (by omega) ha
  have hafter : ∀ x ∈ after, Fits x := fun x hm => hx x (List.mem_append_right _ hm)
  have hexact_b := exact_runAll hexact_a hafter hfits hb
  obtain ⟨m, hm, hs⟩ := hexact_b.replayed
  obtain ⟨bytes, hr, hbytes⟩ := hexact_b.restorable
  refine ⟨hexact_b.consecutive, ⟨m, hm, hs.1.store.symm⟩, ⟨bytes, hr.applied, hbytes⟩, ?_, ?_, ?_⟩
  · exact fun i r hi => le_trans (hexact_b.tracked.applied i r hi).1 hexact_b.tracked.applied_le
  · intro i h1 h2
    have hlt := hexact_a.tracked.good.commit_lt_size
    obtain ⟨e, he⟩ :=
      Option.isSome_iff_exists.mp ((hexact_a.tracked.good.stored i).mpr ⟨h1, by omega⟩)
    refine ⟨e, he, fun r hir => ?_⟩
    have hknown := exact_runAll { hexact_a with tracked := tracked_know hexact_a.tracked h2 he }
      hafter hfits hb
    exact (hknown.tracked.applied i r hir).2.2 e.request (by simp)
  · intro applying s hap
    have hi := hexact_b.next applying hap
    have hlast := hexact_b.consecutive.1
    unfold commitTransaction
    rw [if_neg (by omega), if_pos (by omega), if_neg (not_not.mpr hi)]
    exact ⟨_, rfl⟩

/-- A client's write is applied, the batch is lost in a crash, and the write is applied again
from the journal. -/
theorem a_lost_batch_is_applied_again :
    let reads := fun (_ : Store) (_ : RedisRequest) => Except.ok Formatter.null
    ∃ new start a b, RaftJournal.obliterate (ascii "id") [⟨ascii "s1", 7776⟩] 0 = .ok new ∧
      boot new [{ store := ∅, history := [] }] = some start ∧
      start.runAll wholeDoubles reads [.track (.append 0 1 0 aWrite), .track .insertBlocked,
        .track .addPending, .track (.setCommitIndex 1), .track .readCommitIndex,
        .track .beginApply, .track .applySingleCommit] = some a ∧
      a.machine.lastApplied = 1 ∧
      a.runAll wholeDoubles reads [.crash 1, .track .beginApply, .track .applySingleCommit] = some b ∧
      b.node.machine.history = [(1, aWrite.toRedisRequest)] ∧
      ∃ m, replay wholeDoubles reads start.machine b.node.machine.history = .ok m ∧
        m.store = b.machine.store := by
  intro reads
  have hrun : (do
      let new ← orDie (RaftJournal.obliterate (ascii "id") [⟨ascii "s1", 7776⟩] 0)
      let start ← boot new [{ store := ∅, history := [] }]
      let a ← start.runAll wholeDoubles reads [.track (.append 0 1 0 aWrite), .track .insertBlocked,
        .track .addPending, .track (.setCommitIndex 1), .track .readCommitIndex,
        .track .beginApply, .track .applySingleCommit]
      let b ← a.runAll wholeDoubles reads [.crash 1, .track .beginApply, .track .applySingleCommit]
      if a.machine.lastApplied = 1 ∧ b.node.machine.history = [(1, aWrite.toRedisRequest)] ∧
        0 ≤ start.machine.lastApplied ∧ start.machine.lastApplied ≤ new.commitIndex ∧
        b.node.journal.commitIndex < 2 ^ 63 then some () else none) = some () := by
    decide +kernel
  obtain ⟨new, hnew, hrun⟩ := Option.bind_eq_some_iff.mp hrun
  obtain ⟨start, hstart, hrun⟩ := Option.bind_eq_some_iff.mp hrun
  obtain ⟨a, ha, hrun⟩ := Option.bind_eq_some_iff.mp hrun
  obtain ⟨b, hb, hrun⟩ := Option.bind_eq_some_iff.mp hrun
  obtain ⟨hlast, hh, hfirst, hle, hfits⟩ := (Option.ite_none_right_eq_some.mp hrun).1
  have hx : ∀ x ∈ ([.track (.append 0 1 0 aWrite), .track .insertBlocked,
      .track .addPending, .track (.setCommitIndex 1), .track .readCommitIndex,
      .track .beginApply, .track .applySingleCommit] : List ReplicaStep) ++
      [.crash 1, .track .beginApply, .track .applySingleCommit], Fits x := by
    rintro x hm queue index term tx rfl
    obtain rfl : tx = aWrite := by simp at hm; exact hm.2.2.2
    decide +kernel
  refine ⟨new, start, a, b, orDie_some hnew, hstart, ha, hlast, hb, hh, ?_⟩
  exact (each_index_is_applied_once_and_in_order wholeDoubles reads (le_refl 0) (orDie_some hnew) []
    hstart hfirst hle hx ha hb hfits).2.1

end Replica

end quarkdb
