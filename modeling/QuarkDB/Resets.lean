-- Resets: an open state machine that is wiped gets the records of a new one. Its expiration
-- cache is not wiped, so it is as good as new only if no lease was held.
import QuarkDB.Leases
import QuarkDB.SingleDeletes

namespace quarkdb

open Endian StateMachine StagingArea Outcome RedisDispatcher

/-! ## Wiping a state machine -/

namespace StateMachine

/-- `ensureClockSanity`, for a state machine that was just created. -/
def createClock : StagingM Unit := do
  if ← keyExists .clock then
    throw (.thrown "Error when reading __clock, which should not exist: ")
  put .clock (unsignedIntToBinaryString 0)
  match ← get .clock with
  | none => throw (.thrown "Error when reading __clock: ")
  | some value =>
    if value.length ≠ 8 then throw (.thrown "Detected corruption of __clock, received size ")

/-- The records go one by one, and those of a new state machine are written. -/
def wipe : StagingM Int := do
  delAll (← MonadState.get).store.keys
  createClock
  retrieveLastApplied

/-- `reset`. The expiration cache is no record: it stays. -/
def reset (m : Machine) : Except Fault Machine := do
  let (lastApplied, s) ← wipe.run (stage m)
  return { store := s.store, expirationCache := s.expirationCache, lastApplied }

/-- What the constructor does where there was no state machine before. -/
def construct : StagingM Int := do
  createClock
  loadExpirationCache
  retrieveLastApplied

def create : Except Fault Machine := do
  let (lastApplied, s) ← construct.run { store := ∅, expirationCache := [] }
  return { store := s.store, expirationCache := s.expirationCache, lastApplied }

end StateMachine

section

variable {s : StagingArea} {fault : Fault → Prop}

/-- The clock of an empty store starts at zero. -/
theorem yields_createClock (hn : s.store.lookup .clock = none)
    {post : Unit → StagingArea → Prop} :
    Yields createClock s post fault ↔ post () (s.putIn .clock (unsignedIntToBinaryString 0)) := by
  have hput : (s.putIn .clock (unsignedIntToBinaryString 0)).store.lookup .clock =
      some (unsignedIntToBinaryString 0) := AList.lookup_insert _
  have hlen : (unsignedIntToBinaryString 0).length = 8 := by decide +kernel
  unfold createClock
  rw [yields_bind, yields_keyExists, hn]
  simp only [Option.isSome_none, Bool.false_eq_true, if_false]
  rw [yields_bind, yields_put, yields_bind, yields_lookup, hput]
  dsimp only
  rw [hlen, if_neg (by simp), yields_pure]

theorem yields_retrieveLastApplied (hn : s.store.lookup .lastApplied = none)
    {post : Int → StagingArea → Prop} :
    Yields retrieveLastApplied s post fault ↔ post 0 (s.putIn .lastApplied (bigInt 0)) := by
  unfold retrieveLastApplied
  rw [yields_bind, yields_lookup, hn]
  dsimp only
  rw [yields_bind, yields_put, yields_pure]

theorem yields_loadExpirationCache_of_none (hn : expirationEvents s.store = [])
    {post : Unit → StagingArea → Prop} :
    Yields loadExpirationCache s post fault ↔ post () s := by
  unfold loadExpirationCache
  rw [yields_bind, yields_get, hn]
  exact Iff.rfl

theorem eq_empty_of_keys {store : Store} (h : store.keys = []) : store = ∅ := by
  apply AList.ext
  exact List.map_eq_nil_iff.mp h

/-- When every key of the store is deleted, nothing is left, and the cache is as it was. -/
theorem yields_delAll_keys {keys : List StoreKey} (hk : s.store.keys = keys) :
    Yields (delAll keys) s
      (fun _ s' => s'.store = ∅ ∧ s'.expirationCache = s.expirationCache) fault := by
  induction keys generalizing s with
  | nil =>
    unfold delAll
    rw [yields_pure]
    exact ⟨eq_empty_of_keys hk, rfl⟩
  | cons key rest ih =>
    unfold delAll
    rw [yields_bind, yields_del]
    apply ih
    show (s.store.erase key).keys = rest
    rw [AList.keys_erase, hk, List.erase_cons_head]

end

/-! ## What is left -/

/-- The records of a new state machine, and the old expiration cache. -/
theorem reset_eq (m : Machine) :
    reset m = .ok { freshMachine with expirationCache := m.expirationCache } := by
  have hw : Yields wipe (stage m) (fun lastApplied s => lastApplied = 0 ∧
      s.store = freshMachine.store ∧ s.expirationCache = m.expirationCache) fun _ => False := by
    unfold wipe
    rw [yields_bind, yields_get, yields_bind]
    refine (yields_delAll_keys rfl).mono fun _ s hs => ?_
    obtain ⟨hempty, hcache⟩ := hs
    rw [yields_bind, yields_createClock (by rw [hempty]; rfl), yields_retrieveLastApplied]
    · refine ⟨rfl, ?_, hcache⟩
      show (s.store.insert .clock _).insert .lastApplied _ = _
      rw [hempty]
      rfl
    · show (s.store.insert .clock _).lookup .lastApplied = none
      rw [hempty]
      rfl
  obtain ⟨lastApplied, s, hrun, rfl, hs, hc⟩ := hw.exists_ok
  unfold reset
  rw [show wipe.run (stage m) = .ok (0, s) from hrun]
  show Except.ok (Machine.mk s.store s.expirationCache 0) = _
  rw [hs, hc]
  rfl

/-- A new state machine has no leases to load. -/
theorem create_eq : create = .ok freshMachine := by
  have hnone : expirationEvents (AList.insert .clock (unsignedIntToBinaryString 0) ∅) = [] :=
    List.mergeSort_nil
  have hc : Yields construct { store := ∅, expirationCache := [] } (fun lastApplied s =>
      lastApplied = 0 ∧ s.store = freshMachine.store ∧ s.expirationCache = []) fun _ => False := by
    unfold construct
    rw [yields_bind, yields_createClock rfl, yields_bind, yields_loadExpirationCache_of_none hnone,
      yields_retrieveLastApplied rfl]
    exact ⟨rfl, rfl, rfl⟩
  obtain ⟨lastApplied, s, hrun, rfl, hs, hc⟩ := hc.exists_ok
  unfold create
  rw [show construct.run _ = .ok (0, s) from hrun]
  show Except.ok (Machine.mk s.store s.expirationCache 0) = _
  rw [hs, hc]
  rfl

/-! ## What is applied afterwards -/

section

variable {s : StagingArea} {key : Bytes} {fault : Fault → Prop}

/-- The cache has a lease in front that is due, and the store knows nothing of it. -/
theorem yields_advanceClock_forgotten {now deadline newValue : UInt64}
    {rest : List (UInt64 × Bytes)} (hc : s.expirationCache = (deadline, key) :: rest)
    (hclock : s.store.lookup .clock = some (unsignedIntToBinaryString now))
    (hn : s.store.lookup (.descriptor key) = none) (hnow : now ≤ newValue)
    (hdue : deadline ≤ newValue)
    (hf : fault (.assertion "lease_release(stagingArea, front, ClockValue(0)).ok()"))
    {post : Unit → StagingArea → Prop} : Yields (advanceClock newValue) s post fault := by
  unfold advanceClock
  rw [yields_bind, yields_getClock_of_lookup hclock, if_neg (UInt64.not_lt.mpr hnow)]
  dsimp only
  rw [yields_bind, yields_get, hc, List.length_cons, yields_bind]
  unfold releaseExpired
  rw [yields_bind, yields_get, hc]
  dsimp only
  rw [if_pos hdue, yields_bind, yields_leaseRelease_unknown hn]
  exact hf

end

section

variable (doubles : Doubles) (dispatchRead : StagingArea → RedisRequest → Except Fault Bytes)

/-- Committed commands, each with its index. -/
def answerAll (m : Machine) : List (RedisRequest × Int) → Except Fault (List Bytes × Machine)
  | [] => .ok ([], m)
  | (request, index) :: rest => do
    let (reply, m) ← dispatch doubles dispatchRead m request index
    let (replies, m) ← answerAll m rest
    return (reply :: replies, m)

/-- Somebody asks who holds a lease on `x`. -/
def leaseGet (clockUpdate : UInt64) : RedisRequest :=
  [ascii "TIMESTAMPED_LEASE_GET", ascii "x", unsignedIntToBinaryString clockUpdate]

theorem dispatch_leaseGet (m : Machine) (clockUpdate : UInt64) :
    dispatch doubles dispatchRead m (leaseGet clockUpdate) 1 = commitAfter m true 1
      (dispatchLeaseGet (ascii "x") (unsignedIntToBinaryString clockUpdate)) := by
  have hfound : findCommand (ascii "TIMESTAMPED_LEASE_GET") =
      some (.TIMESTAMPED_LEASE_GET, .WRITE) := by decide +kernel
  have hparse : parseCommand (leaseGet clockUpdate) = (.TIMESTAMPED_LEASE_GET, .WRITE) := by
    unfold leaseGet
    rw [parseCommand_cons, hfound]
    rfl
  have hcommand : getCommand (leaseGet clockUpdate) = .TIMESTAMPED_LEASE_GET :=
    getCommand_of_parsed hparse
  have hwrite : getCommandType (leaseGet clockUpdate) = .WRITE := getCommandType_of_parsed hparse
  rw [dispatch_of_write doubles dispatchRead hwrite,
    dispatchOne_of_write doubles dispatchRead hwrite (by rw [hcommand]; decide)]
  rw [dispatchCommand, hcommand, leaseGet]
  dsimp only [List.tail]

/-- Where no lease is held and the key has no descriptor, nobody holds it. -/
theorem leaseGet_free {s : StagingArea} {now : UInt64} (clockUpdate : UInt64)
    (hl : Ledger now s.store s.expirationCache) (hcache : s.expirationCache = [])
    (hnone : s.store.lookup (.descriptor (ascii "x")) = none) :
    ∃ s', (dispatchLeaseGet (ascii "x") (unsignedIntToBinaryString clockUpdate)).run s =
      .ok (Formatter.null, s') := by
  have hlen : (unsignedIntToBinaryString clockUpdate).length = 8 := by
    unfold unsignedIntToBinaryString
    rw [List.length_reverse, length_toLittle]
  have hy : Yields (dispatchLeaseGet (ascii "x") (unsignedIntToBinaryString clockUpdate)) s
      (fun reply _ => reply = Formatter.null) fun _ => False := by
    unfold dispatchLeaseGet
    rw [hlen, decide_eq_true rfl, assertThat_true, pure_bind, yields_bind]
    refine (yields_lease_get _ hl).mono fun result s' hs => ?_
    obtain ⟨-, hexp, ⟨t, holder, hm, -⟩ | ⟨-, ⟨-, rfl⟩ | ⟨hd, -⟩⟩⟩ := hs
    · rw [hexp.cache, hcache] at hm
      cases hm
    · rfl
    · rw [hexp.others _ (by nofun) (by rw [hcache]; simp)] at hd
      exact absurd hnone hd
  obtain ⟨reply, s', hrun, rfl⟩ := hy.exists_ok
  exact ⟨s', hrun⟩

/-- On a new state machine, nobody holds it. -/
theorem leaseGet_new (clockUpdate : UInt64) :
    ∃ m, dispatch doubles dispatchRead freshMachine (leaseGet clockUpdate) 1 =
      .ok (Formatter.null, m) := by
  obtain ⟨now, -, hl⟩ := freshMachine_inOrder
  obtain ⟨s, hrun⟩ := leaseGet_free (s := stage freshMachine) clockUpdate hl rfl rfl
  rw [dispatch_leaseGet]
  unfold commitAfter
  rw [bind_of_ok hrun]
  exact ⟨_, rfl⟩

/-- After a reset, a lease that was held is remembered when its deadline passes. -/
theorem leaseGet_forgotten {deadline : UInt64} {key : Bytes} {rest : List (UInt64 × Bytes)}
    {clockUpdate : UInt64} (hpos : 0 < clockUpdate) (hdue : deadline ≤ clockUpdate) :
    dispatch doubles dispatchRead
      { freshMachine with expirationCache := (deadline, key) :: rest } (leaseGet clockUpdate) 1 =
        .error (.assertion "lease_release(stagingArea, front, ClockValue(0)).ok()") := by
  have hlen : (unsignedIntToBinaryString clockUpdate).length = 8 := by
    unfold unsignedIntToBinaryString
    rw [List.length_reverse, length_toLittle]
  have hclock : freshMachine.store.lookup .clock = some (unsignedIntToBinaryString 0) := rfl
  have hnone : freshMachine.store.lookup (.descriptor key) = none := rfl
  have hy : Yields (dispatchLeaseGet (ascii "x") (unsignedIntToBinaryString clockUpdate))
      (stage { freshMachine with expirationCache := (deadline, key) :: rest }) (fun _ _ => False)
      (· = .assertion "lease_release(stagingArea, front, ClockValue(0)).ok()") := by
    unfold dispatchLeaseGet lease_get maybeAdvanceClock
    rw [hlen, decide_eq_true rfl, assertThat_true, pure_bind, yields_bind, yields_bind, yields_bind,
      yields_getClock_of_lookup hclock, binaryStringToUnsignedInt_unsignedIntToBinaryString,
      if_pos hpos, yields_bind]
    have hc : (stage { freshMachine with expirationCache := (deadline, key) :: rest }
      ).expirationCache = (deadline, key) :: rest := rfl
    apply yields_advanceClock_forgotten hc hclock hnone (UInt64.le_of_lt hpos) hdue
    rfl
  obtain ⟨e, hrun, rfl⟩ := hy.exists_error
  rw [dispatch_leaseGet]
  unfold commitAfter
  rw [show (dispatchLeaseGet _ _).run _ = _ from hrun]
  rfl

/-- There is a time when a deadline has passed, and the clock has moved. -/
theorem exists_time_past (deadline : UInt64) : ∃ t : UInt64, 0 < t ∧ deadline ≤ t := by
  by_cases hz : deadline = 0
  · exact ⟨1, by decide, by rw [hz]; decide⟩
  · exact ⟨deadline, UInt64.pos_iff_ne_zero.mpr hz, UInt64.le_refl deadline⟩

/-- A state machine that is reset has the records of a new one, and has applied nothing. Its
expiration cache is that of a new one, and what is applied afterwards has the same outcome,
if and only if no lease was held. -/
theorem a_reset_machine_is_new_unless_a_lease_is_held (m : Machine) :
    ∃ m' new, reset m = .ok m' ∧ create = .ok new ∧ m'.store = new.store ∧
      m'.lastApplied = new.lastApplied ∧
      (m'.expirationCache = new.expirationCache ↔ m.expirationCache = []) ∧
      ((∀ commands, answerAll doubles dispatchRead m' commands =
        answerAll doubles dispatchRead new commands) ↔ m.expirationCache = []) := by
  refine ⟨_, _, reset_eq m, create_eq, rfl, rfl, Iff.rfl, ?_, ?_⟩
  · intro h
    rcases hc : m.expirationCache with _ | ⟨⟨deadline, key⟩, rest⟩
    · rfl
    obtain ⟨clockUpdate, hpos, hdue⟩ := exists_time_past deadline
    obtain ⟨m', hnew⟩ := leaseGet_new doubles dispatchRead clockUpdate
    have hone := h [(leaseGet clockUpdate, 1)]
    unfold answerAll at hone
    rw [hc, leaseGet_forgotten doubles dispatchRead hpos hdue, hnew] at hone
    cases hone
  · intro hc commands
    rw [hc]
    rfl

end

/-- A lease outlives the reset. When its deadline passes, the next command ends the process,
and would not have on a new state machine. -/
theorem a_lease_survives_a_reset : ∃ reply m m' new,
    dispatchTransaction wholeDoubles readsNothing freshMachine acquisition 1 = .ok (reply, m) ∧
    reset m = .ok m' ∧ create = .ok new ∧
    m'.expirationCache = [(1010, ascii "k")] ∧ new.expirationCache = [] ∧
    dispatch wholeDoubles readsNothing m' (leaseGet 1010) 1 =
      .error (.assertion "lease_release(stagingArea, front, ClockValue(0)).ok()") ∧
    ∃ new', dispatch wholeDoubles readsNothing new (leaseGet 1010) 1 =
      .ok (Formatter.null, new') := by
  have hrun : (dispatchTransaction wholeDoubles readsNothing freshMachine acquisition 1).map
      (fun r => r.2.expirationCache) = .ok [(1010, ascii "k")] := by decide +kernel
  obtain ⟨⟨reply, m⟩, hd, hc⟩ := exists_of_map_ok hrun
  refine ⟨reply, m, _, _, hd, reset_eq m, create_eq, hc, rfl, ?_, leaseGet_new _ _ 1010⟩
  rw [show m.expirationCache = [(1010, ascii "k")] from hc]
  exact leaseGet_forgotten _ _ (by decide) (by decide)

end quarkdb
