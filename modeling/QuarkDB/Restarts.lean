-- Between two batches the state machine can be opened again: the store is what it was, and
-- the same leases are cached.
import QuarkDB.Batches
import QuarkDB.Twins

namespace quarkdb

open Endian StateMachine StagingArea Outcome RedisDispatcher

/-! ## What is on disk -/

/-- The cache holds the leases whose expiration is in the store, and what is read when the
state machine is opened can be read. -/
structure Restorable (applied : Option Bytes) (s : StagingArea) : Prop where
  events : ∀ deadline key,
    .expirationEvent deadline key ∈ s.store ↔ (deadline, key) ∈ s.expirationCache
  line : InLine s.expirationCache
  clock : ∃ value, s.store.lookup .clock = some value ∧ value.length = 8
  applied : s.store.lookup .lastApplied = applied

section

variable {applied : Option Bytes} {s s' : StagingArea} {deadline : UInt64} {key : Bytes}

/-- A change to no expiration, and to nothing of the state machine itself. -/
theorem Restorable.beside {k : StoreKey} (h : Restorable applied s)
    (hc : s'.expirationCache = s.expirationCache)
    (hsame : ∀ k', k' ≠ k → s'.store.lookup k' = s.store.lookup k')
    (hevent : ∀ deadline key, k ≠ .expirationEvent deadline key) (hclock : k ≠ .clock)
    (happlied : k ≠ .lastApplied) : Restorable applied s' := by
  refine ⟨fun t key' => ?_, ?_, ?_, ?_⟩
  · rw [mem_congr (hsame _ (hevent t key').symm), hc]
    exact h.events t key'
  · rw [hc]
    exact h.line
  · rw [hsame _ hclock.symm]
    exact h.clock
  · rw [hsame _ happlied.symm]
    exact h.applied

theorem Restorable.put {k : StoreKey} (h : Restorable applied s) (value : Bytes)
    (hevent : ∀ deadline key, k ≠ .expirationEvent deadline key) (hclock : k ≠ .clock)
    (happlied : k ≠ .lastApplied) : Restorable applied (s.putIn k value) :=
  h.beside rfl (fun _ hne => AList.lookup_insert_ne hne) hevent hclock happlied

theorem Restorable.del {k : StoreKey} (h : Restorable applied s)
    (hevent : ∀ deadline key, k ≠ .expirationEvent deadline key) (hclock : k ≠ .clock)
    (happlied : k ≠ .lastApplied) : Restorable applied (s.delIn k) :=
  h.beside rfl (fun _ hne => AList.lookup_erase_ne hne) hevent hclock happlied

theorem tolerates_restorable {type : KeyType} (ht : type ≠ .kLease) (key : Bytes) :
    Tolerates (Restorable applied) key type := by
  have hevent : ∀ {k : StoreKey}, k.dataType = some type →
      ∀ deadline key, k ≠ .expirationEvent deadline key := by
    rintro k hk deadline key rfl
    exact ht (Option.some.inj hk).symm
  have hclock : ∀ {k : StoreKey}, k.dataType = some type → k ≠ .clock ∧ k ≠ .lastApplied := by
    intro k hk
    constructor
    · rintro rfl
      cases hk
    · rintro rfl
      cases hk
  refine ⟨?_, ?_, ?_, ?_, ?_⟩
  · intro s k value _ hk h
    exact h.put value (hevent hk) (hclock hk).1 (hclock hk).2
  · intro s k _ hk h
    exact h.del (hevent hk) (hclock hk).1 (hclock hk).2
  · intro s d bytes _ _ h
    exact h.put bytes nofun nofun nofun
  · intro s h
    exact h.del nofun nofun nofun
  · intro s revision h
    exact ⟨h.events, h.line, h.clock, h.applied⟩

/-- A lease leaves the cache and the store. -/
theorem Restorable.unbook (h : Restorable applied s) :
    Restorable applied (StagingArea.delIn
      { s with expirationCache := s.expirationCache.erase (deadline, key) }
      (.expirationEvent deadline key)) := by
  refine ⟨fun t key' => ?_, h.line.sublist List.erase_sublist, ?_, ?_⟩
  · change _ ∈ AList.erase (.expirationEvent deadline key) s.store ↔
      (t, key') ∈ s.expirationCache.erase (deadline, key)
    rw [AList.mem_erase, (List.Nodup.of_map _ h.line.once).mem_erase_iff, h.events]
    exact and_congr_left fun _ => not_congr ⟨fun he => by cases he; rfl, fun he => by cases he; rfl⟩
  · change ∃ value, (AList.erase (.expirationEvent deadline key) s.store).lookup .clock = _ ∧ _
    rw [AList.lookup_erase_ne (by nofun)]
    exact h.clock
  · exact (AList.lookup_erase_ne (by nofun)).trans h.applied

/-- A lease comes into the cache and the store. -/
theorem Restorable.book (h : Restorable applied s) (hn : ∀ t, (t, key) ∉ s.expirationCache)
    (value : Bytes) :
    Restorable applied (StagingArea.putIn
      { s with expirationCache := placed deadline key s.expirationCache }
      (.expirationEvent deadline key) value) := by
  refine ⟨fun t key' => ?_, inLine_placed h.line hn, ?_, ?_⟩
  · change _ ∈ AList.insert (.expirationEvent deadline key) value s.store ↔
      (t, key') ∈ placed deadline key s.expirationCache
    rw [AList.mem_insert, mem_placed, h.events]
    exact or_congr_left ⟨fun he => by cases he; rfl, fun he => by cases he; rfl⟩
  · change ∃ bytes, (AList.insert (.expirationEvent deadline key) value s.store).lookup .clock = _ ∧ _
    rw [AList.lookup_insert_ne (by nofun)]
    exact h.clock
  · exact (AList.lookup_insert_ne (by nofun)).trans h.applied

/-! ## Leases -/

/-- A lease that has a descriptor is cached, and in the store, or its removal fails. -/
theorem keeps_unbook {α : Type} {f : Unit → StagingM α}
    (hf : Keeps (Restorable applied) (fun _ => True) (f ())) :
    Keeps (Restorable applied) (fun _ => True)
      (cacheRemove deadline key >>= fun _ => StagingArea.del (.expirationEvent deadline key) >>= f) := by
  intro s hs
  rw [yields_bind]
  by_cases hm : (deadline, key) ∈ s.expirationCache
  · rw [yields_cacheRemove hm, yields_bind, yields_del]
    exact hf _ (hs.unbook)
  · unfold cacheRemove
    rw [yields_bind, yields_get, if_neg hm]
    trivial

theorem keeps_leaseRelease_restorable (key : Bytes) :
    Keeps (Restorable applied) (fun _ => True) (leaseRelease key) := by
  have hforget : ∀ op : WriteOperation, op.keyinfo.keyType = .kLease →
      Keeps (Restorable applied) (fun _ => True) (op.finalize 0 false) := by
    intro op ht
    unfold WriteOperation.finalize
    refine keeps_bind ((leaves_assertWritable op).weaken fun _ _ => trivial) fun _ => ?_
    rw [if_neg (by omega), if_pos ⟨rfl, by rw [ht]; nofun⟩]
    exact fun s hs => hs.del nofun nofun nofun
  refine keeps_withOperation (fun _ _ => trivial) (fun _ _ _ => True.intro) fun op _ ht _ => ?_
  dsimp only
  split
  · exact keeps_bind (hforget op ht) fun _ => keeps_pure _
  refine keeps_bind ((leaves_mustExist _).weaken fun _ _ => trivial) fun _ => ?_
  refine keeps_unbook ?_
  refine keeps_bind ((leaves_mustExist _).weaken fun _ _ => trivial) fun _ => ?_
  refine keeps_bind (fun s hs => hs.del nofun nofun nofun) fun _ => ?_
  exact keeps_bind (hforget op ht) fun _ => keeps_pure _

theorem keeps_releaseExpired_restorable (newValue : UInt64) (fuel : Nat) :
    Keeps (Restorable applied) (fun _ => True) (releaseExpired fuel newValue) := by
  induction fuel with
  | zero => exact keeps_pure _
  | succ fuel ih =>
    refine keeps_get fun s _ => ?_
    split
    · exact keeps_pure _
    split
    · refine keeps_bind (keeps_leaseRelease_restorable _) fun st => ?_
      exact keeps_lift (fun _ _ => trivial) fun _ _ => ih
    · exact keeps_pure _

theorem keeps_maybeAdvanceClock_restorable (clockUpdate : UInt64) :
    Keeps (Restorable applied) (fun _ => True) (maybeAdvanceClock clockUpdate) := by
  refine keeps_bind keeps_getClock fun currentClock => ?_
  split
  · refine keeps_bind ?_ fun _ => keeps_pure _
    unfold advanceClock
    refine keeps_bind keeps_getClock fun prevValue => ?_
    dsimp only
    split
    · exact keeps_throw_bind trivial
    refine keeps_get fun s _ => ?_
    refine keeps_bind (keeps_releaseExpired_restorable _ _) fun _ => ?_
    intro s hs
    refine ⟨fun t key => ?_, hs.line, ⟨_, AList.lookup_insert _, ?_⟩, ?_⟩
    · rw [← hs.events]
      exact mem_congr (AList.lookup_insert_ne (by nofun))
    · exact length_unsignedIntToBinaryString _
    · exact (AList.lookup_insert_ne (by nofun)).trans hs.applied
  · exact keeps_pure _

theorem keeps_lease_acquire_restorable (key value : Bytes) (clockUpdate duration : UInt64) :
    Keeps (Restorable applied) (fun _ => True) (lease_acquire key value clockUpdate duration) := by
  have hwrite : ∀ op : WriteOperation, op.keyinfo.keyType = .kLease →
      Keeps (Restorable applied) (fun _ => True) (op.write value) := by
    intro op ht
    refine keeps_bind ((leaves_assertWritable op).weaken fun _ _ => trivial) fun _ => ?_
    refine keeps_lift (fun _ _ => trivial) fun k hk => ?_
    have hk' : k = .lease op.redisKey := by
      unfold WriteOperation.valueKey at hk
      rw [ht] at hk
      cases hk
      rfl
    subst hk'
    exact fun s hs => hs.put value nofun nofun nofun
  have hfinalize : ∀ (op : WriteOperation) (size : Int),
      Keeps (Restorable applied) (fun _ => True) (op.finalize size true) := by
    intro op size
    unfold WriteOperation.finalize
    refine keeps_bind ((leaves_assertWritable op).weaken fun _ _ => trivial) fun _ => ?_
    dsimp only
    split
    · exact keeps_throw_bind trivial
    split
    · exact fun s hs => hs.del nofun nofun nofun
    split
    · refine keeps_lift (fun _ _ => trivial) fun bytes _ => ?_
      exact fun s hs => hs.put bytes nofun nofun nofun
    · exact keeps_pure _
  refine keeps_lift (fun _ _ => trivial) fun _ _ => ?_
  refine keeps_bind (keeps_maybeAdvanceClock_restorable _) fun now => ?_
  refine keeps_withOperation (fun _ _ => trivial) (fun _ _ _ => True.intro) fun op hk ht _ => ?_
  refine keeps_bind ((leaves_get _).weaken fun _ _ => trivial) fun oldLeaseHolder => ?_
  dsimp only
  split
  · exact keeps_pure _
  have hgrant : ∀ op' : WriteOperation, op'.keyinfo.keyType = .kLease →
      ∀ st : LeaseAcquisitionStatus, Keeps (Restorable applied) (fun _ => True) (do
        cacheInsert (now + duration) key
        put (.expirationEvent (now + duration) key) (ascii "1")
        op'.write value
        op'.finalize value.length true
        return (st, value, now + duration) : StagingM _) := by
    intro op' ht' st s hs
    rw [yields_bind]
    by_cases hn : ∀ t, (t, key) ∉ s.expirationCache
    · rw [yields_cacheInsert hn, yields_bind, yields_put, yields_bind]
      refine (hwrite op' ht' _ (hs.book hn _)).mono fun _ s1 h1 => ?_
      rw [yields_bind]
      exact (hfinalize op' _ s1 h1).mono fun _ s2 h2 => h2
    · have hany : (s.expirationCache.any fun e : UInt64 × Bytes => e.2 = key) = true := by
        obtain ⟨t, hm⟩ := not_forall_not.mp hn
        exact List.any_eq_true.mpr ⟨_, hm, decide_eq_true rfl⟩
      unfold cacheInsert
      rw [yields_bind, yields_get, yields_bind, hany]
      trivial
  split
  · intro s hs
    rw [yields_bind]
    by_cases hm : (op.keyinfo.endIndex, key) ∈ s.expirationCache
    · have hevent : .expirationEvent op.keyinfo.endIndex key ∈ ({ s with
          expirationCache := s.expirationCache.erase (op.keyinfo.endIndex, key) } :
          StagingArea).store := (hs.events _ _).mpr hm
      rw [yields_cacheRemove hm, yields_bind, yields_mustExist hevent, yields_bind, yields_del]
      exact hgrant { op with
        keyinfo := { op.keyinfo with startIndex := now, endIndex := now + duration } } ht _ _
        (hs.unbook)
    · unfold cacheRemove
      rw [yields_bind, yields_get, if_neg hm]
      trivial
  · exact hgrant { op with
      keyinfo := { op.keyinfo with startIndex := now, endIndex := now + duration } } ht .kAcquired

theorem keeps_delKeys_restorable (keys : List Bytes) :
    Keeps (Restorable applied) (fun _ => True) (delKeys keys) := by
  induction keys with
  | nil => exact keeps_pure _
  | cons key rest ih =>
    refine keeps_bind ((leaves_getKeyDescriptor key).weaken fun _ _ => trivial) fun keyInfo => ?_
    split
    · exact ih
    have hcontents : Keeps (Restorable applied) (fun _ => True) (removeContents key keyInfo) := by
      by_cases hl : keyInfo.keyType = .kLease
      · unfold removeContents
        rw [hl]
        refine keeps_bind (keeps_leaseRelease_restorable key) fun st => ?_
        split
        · exact keeps_throw trivial
        · exact keeps_pure _
      · exact (leaves_removeContents (tolerates_restorable hl key) hl).weaken fun _ _ => trivial
    refine keeps_bind hcontents fun _ => ?_
    refine keeps_bind (fun s hs => hs.del nofun nofun nofun) fun _ => ?_
    exact keeps_bind ih fun _ => keeps_pure _

theorem keeps_flushall_restorable : Keeps (Restorable applied) (fun _ => True) flushall := by
  intro s hs
  unfold flushall
  rw [yields_bind]
  refine yields_removeAll fun s1 hs1 _ => ?_
  rw [yields_bind, yields_modify, yields_pure]
  refine ⟨fun t key => ⟨fun hm => ?_, nofun⟩, ⟨List.Pairwise.nil, List.nodup_nil⟩, ?_, ?_⟩
  · exact absurd hm (AList.lookup_eq_none.mp (hs1 _))
  · obtain ⟨value, hv, hlen⟩ := hs.clock
    exact ⟨value, (hs1 .clock).trans hv, hlen⟩
  · exact (hs1 .lastApplied).trans hs.applied

/-! ## Requests -/

/-- Whatever a command does, what it leaves can be opened again. -/
theorem keeps_dispatchCommand_restorable (doubles : Doubles) (request : RedisRequest) :
    Keeps (Restorable applied) (fun _ => True) (dispatchCommand doubles request) := by
  by_cases hl : mayEndLeases request = false
  · refine (leaves_dispatchCommand doubles hl (fun key _ type ht => ?_) ?_).weaken fun _ _ => trivial
    · exact fun _ _ _ => tolerates_restorable ht key
    · exact fun s key value hs => hs.put value nofun nofun nofun
  unfold mayEndLeases at hl
  unfold dispatchCommand
  split at hl <;> rename_i hc
  · rcases ht : request.tail with _ | ⟨key, keys⟩ <;> rw [hc] <;> dsimp only
    · exact keeps_bind keeps_flushall_restorable fun _ => keeps_pure _
    · exact keeps_pure _
  · rcases ht : request.tail with _ | ⟨key, keys⟩ <;> rw [hc] <;> dsimp only
    · exact keeps_pure _
    · exact keeps_bind (keeps_delKeys_restorable _) fun _ => keeps_pure _
  · rcases ht : request.tail with _ | ⟨key, _ | ⟨value, _ | ⟨duration, _ | ⟨stamp, _ | _⟩⟩⟩⟩ <;>
      rw [hc] <;> dsimp only <;> try exact keeps_pure _
    unfold dispatchLeaseAcquire
    split
    · exact keeps_pure _
    split
    · exact keeps_pure _
    refine keeps_lift (fun _ _ => trivial) fun _ _ => ?_
    refine keeps_bind (keeps_lease_acquire_restorable _ _ _ _) fun result => ?_
    split <;> exact keeps_pure _
  · rcases ht : request.tail with _ | ⟨key, _ | ⟨stamp, _ | _⟩⟩ <;>
      rw [hc] <;> dsimp only <;> try exact keeps_pure _
    unfold dispatchLeaseGet
    refine keeps_lift (fun _ _ => trivial) fun _ _ => ?_
    refine keeps_bind ?_ fun ⟨st, holder, deadline⟩ => ?_
    · refine keeps_bind (keeps_maybeAdvanceClock_restorable _) fun _ => ?_
      refine keeps_bind ((leaves_getKeyDescriptor key).weaken fun _ _ => trivial) fun keyinfo => ?_
      split
      · exact keeps_pure _
      split
      · exact keeps_pure _
      refine keeps_bind ((leaves_get _).weaken fun _ _ => trivial) fun found => ?_
      split
      · exact keeps_throw trivial
      · exact keeps_pure _
    · dsimp only
      split
      · exact keeps_pure _
      · exact keeps_lift (fun _ _ => trivial) fun _ _ => keeps_pure _
  · rcases ht : request.tail with _ | ⟨key, _ | ⟨stamp, _ | _⟩⟩ <;>
      rw [hc] <;> dsimp only <;> try exact keeps_pure _
    unfold dispatchLeaseRelease
    refine keeps_lift (fun _ _ => trivial) fun _ _ => ?_
    refine keeps_bind ?_ fun st => ?_
    · unfold lease_release
      dsimp only
      split
      · exact keeps_bind (keeps_maybeAdvanceClock_restorable _) fun _ =>
          keeps_leaseRelease_restorable key
      · exact keeps_leaseRelease_restorable key
    · split <;> exact keeps_pure _
  · exact absurd rfl hl

end

/-! ## Opening the state machine again -/

/-- What a state machine holds in memory is what it finds when it is opened again. -/
def RedisDispatcher.Machine.Restorable (m : Machine) : Prop :=
  ∃ bytes, quarkdb.Restorable (some bytes) (stage m) ∧ ofBigInt bytes = m.lastApplied

/-- Two state machines that differ in the order of the cached leases only. -/
def SameMachine (m m' : Machine) : Prop :=
  Twin (stage m) (stage m') ∧ m'.lastApplied = m.lastApplied

section

variable {s : StagingArea} {m m' : Machine} {fault : Fault → Prop}

theorem SameMachine.trans {m'' : Machine} (h : SameMachine m m') (h' : SameMachine m' m'') :
    SameMachine m m'' :=
  ⟨⟨h'.1.store.trans h.1.store, rfl, rfl, h.1.cache.trans h'.1.cache, h.1.left, h'.1.right⟩,
    h'.2.trans h.2⟩

theorem sameMachine_refl (h : m.Restorable) : SameMachine m m := by
  obtain ⟨bytes, hr, -⟩ := h
  exact ⟨⟨rfl, rfl, rfl, List.Perm.refl _, hr.line, hr.line⟩, rfl⟩

/-- All leases of the store are cached, or one of them is there twice. -/
theorem yields_cacheInsertAll_line (events : List (UInt64 × Bytes)) {s : StagingArea}
    (h : InLine s.expirationCache) :
    Yields (cacheInsertAll events) s (fun _ s' => s'.store = s.store ∧
      s'.expirationCache.Perm (events ++ s.expirationCache) ∧ InLine s'.expirationCache)
      fun _ => True := by
  induction events generalizing s with
  | nil => exact ⟨rfl, List.Perm.refl _, h⟩
  | cons e rest ih =>
    obtain ⟨deadline, key⟩ := e
    unfold cacheInsertAll
    rw [yields_bind]
    by_cases hn : ∀ t, (t, key) ∉ s.expirationCache
    · rw [yields_cacheInsert hn]
      refine (ih (inLine_placed h hn)).mono fun _ s' hs' => ⟨hs'.1, ?_, hs'.2.2⟩
      exact hs'.2.1.trans ((List.Perm.append_left _ placed_perm).trans List.perm_middle)
    · have hany : (s.expirationCache.any fun e : UInt64 × Bytes => e.2 = key) = true := by
        obtain ⟨t, hm⟩ := not_forall_not.mp hn
        exact List.any_eq_true.mpr ⟨_, hm, decide_eq_true rfl⟩
      unfold cacheInsert
      rw [yields_bind, yields_get, yields_bind, hany]
      trivial

theorem yields_loadExpirationCache (h : s.expirationCache = []) :
    Yields loadExpirationCache s (fun _ s' => s'.store = s.store ∧ InLine s'.expirationCache ∧
      ∀ deadline key, .expirationEvent deadline key ∈ s'.store ↔
        (deadline, key) ∈ s'.expirationCache) fun _ => True := by
  unfold loadExpirationCache
  rw [yields_bind, yields_get]
  have hline : InLine s.expirationCache := by
    rw [h]
    exact ⟨List.Pairwise.nil, List.nodup_nil⟩
  refine (yields_cacheInsertAll_line _ hline).mono fun _ s' hs' => ⟨hs'.1, hs'.2.2, ?_⟩
  intro deadline key
  rw [hs'.1, hs'.2.1.mem_iff, h, List.append_nil, mem_expirationEvents]

/-- With a clock in place, its length is checked. -/
theorem yields_checkClock {s1 : StagingArea} (hc : s1.expirationCache = s.expirationCache)
    (hsame : ∀ k ≠ .clock, s1.store.lookup k = s.store.lookup k) :
    Yields (do
      match ← StagingArea.get .clock with
      | none => throw (.thrown "Error when reading __clock: ")
      | some value =>
        if value.length ≠ 8 then
          throw (.thrown "Detected corruption of __clock, received size ") : StagingM Unit) s1
      (fun _ s' => s'.expirationCache = s.expirationCache ∧
        (∀ k ≠ .clock, s'.store.lookup k = s.store.lookup k) ∧
        ∃ value, s'.store.lookup .clock = some value ∧ value.length = 8) fun _ => True := by
  rw [yields_bind, yields_lookup]
  rcases hl : s1.store.lookup .clock with _ | value <;> rw [hl] <;> dsimp only
  · trivial
  split
  · trivial
  · rename_i hlen
    exact ⟨hc, hsame, value, hl, not_not.mp hlen⟩

theorem yields_ensureClockSanity :
    Yields ensureClockSanity s (fun _ s' => s'.expirationCache = s.expirationCache ∧
      (∀ k ≠ .clock, s'.store.lookup k = s.store.lookup k) ∧
      ∃ value, s'.store.lookup .clock = some value ∧ value.length = 8) fun _ => True := by
  unfold ensureClockSanity
  rw [yields_bind, yields_keyExists]
  dsimp only
  split
  · rw [yields_bind, yields_put]
    exact yields_checkClock rfl fun k hk => AList.lookup_insert_ne hk
  · exact yields_checkClock rfl fun _ _ => rfl

/-- Whatever store a state machine is opened on, it can be opened again. -/
theorem restorable_of_reopen (h : reopen m = .ok m') : m'.Restorable := by
  unfold reopen at h
  obtain ⟨⟨lastApplied, s⟩, hrun, h⟩ := ok_of_bind h
  cases h
  have hy : Yields (do ensureClockSanity; loadExpirationCache; retrieveLastApplied)
      { store := m.store, expirationCache := [] } (fun lastApplied s =>
        ∃ bytes, quarkdb.Restorable (some bytes) s ∧ ofBigInt bytes = lastApplied)
      fun _ => True := by
    rw [yields_bind]
    refine yields_ensureClockSanity.mono fun _ s1 h1 => ?_
    rw [yields_bind]
    refine (yields_loadExpirationCache h1.1).mono fun _ s2 h2 => ?_
    have hr : quarkdb.Restorable (s2.store.lookup .lastApplied) s2 :=
      ⟨h2.2.2, h2.2.1, by rw [h2.1]; exact h1.2.2, rfl⟩
    unfold retrieveLastApplied
    rw [yields_bind, yields_lookup]
    rcases hl : s2.store.lookup .lastApplied with _ | bytes <;> rw [hl] <;> dsimp only
    · rw [yields_bind, yields_put, yields_pure]
      refine ⟨bigInt 0, ⟨fun t key => ?_, hr.line, ?_, AList.lookup_insert _⟩, ofBigInt_bigInt (by decide) (by decide)⟩
      · exact (mem_congr (AList.lookup_insert_ne (by nofun))).trans (hr.events t key)
      · obtain ⟨value, hv, hlen⟩ := hr.clock
        exact ⟨value, (AList.lookup_insert_ne (by nofun)).trans hv, hlen⟩
    · rw [yields_pure]
      rw [hl] at hr
      exact ⟨bytes, hr, rfl⟩
  obtain ⟨bytes, hr, hb⟩ := hy.of_ok hrun
  exact ⟨bytes, ⟨hr.events, hr.line, hr.clock, hr.applied⟩, hb⟩

theorem reopen_of_run {lastApplied : Int}
    (h : (do ensureClockSanity; loadExpirationCache; retrieveLastApplied : StagingM Int)
      { store := m.store, expirationCache := [] } = .ok (lastApplied, s)) :
    reopen m = .ok { store := s.store, expirationCache := s.expirationCache, lastApplied } := by
  let opening : StagingM Int := do
    ensureClockSanity
    loadExpirationCache
    retrieveLastApplied
  unfold reopen
  rw [bind_of_ok (show opening.run _ = _ from h)]
  rfl

/-- What is opened again is the same state machine. -/
theorem reopen_same (h : m.Restorable) : ∃ m', reopen m = .ok m' ∧ SameMachine m m' := by
  obtain ⟨bytes, hr, hb⟩ := h
  obtain ⟨value, hclock, hlen⟩ := hr.clock
  have hclock : m.store.lookup .clock = some value := hclock
  have happlied : m.store.lookup .lastApplied = some bytes := hr.applied
  have hperm : (expirationEvents m.store).Perm m.expirationCache := by
    refine (List.perm_ext_iff_of_nodup (nodup_expirationEvents _)
      (List.Nodup.of_map _ hr.line.once)).mpr fun e => ?_
    rw [mem_expirationEvents]
    exact hr.events e.1 e.2
  let opening : StagingM Int := do
    ensureClockSanity
    loadExpirationCache
    retrieveLastApplied
  have hy : Yields opening { store := m.store, expirationCache := [] } (fun lastApplied s =>
      s.store = m.store ∧ m.expirationCache.Perm s.expirationCache ∧ InLine s.expirationCache ∧
        lastApplied = m.lastApplied) fun _ => False := by
    change Yields (do ensureClockSanity; loadExpirationCache; retrieveLastApplied) _ _ _
    unfold ensureClockSanity
    rw [yields_bind, yields_bind, yields_keyExists]
    dsimp only
    rw [hclock, if_neg (by simp), yields_bind, yields_lookup]
    dsimp only
    rw [hclock]
    dsimp only
    rw [hlen, if_neg (by simp), yields_pure, yields_bind]
    unfold loadExpirationCache
    rw [yields_bind, yields_get]
    refine yields_cacheInsertAll _ ?_ List.Pairwise.nil fun cache hc hsorted => ?_
    · rw [List.map_nil, List.append_nil]
      exact (hperm.map Prod.snd).nodup_iff.mpr hr.line.once
    rw [List.append_nil] at hc
    have hsame := hperm.symm.trans hc.symm
    unfold retrieveLastApplied
    rw [yields_bind, yields_lookup]
    dsimp only
    rw [happlied]
    exact ⟨rfl, hsame, ⟨hsorted, (hsame.map Prod.snd).nodup_iff.mp hr.line.once⟩, hb⟩
  obtain ⟨lastApplied, s, hrun, hs, hp, hl, ha⟩ := hy.exists_ok
  exact ⟨_, reopen_of_run hrun, ⟨hs, rfl, rfl, hp, hr.line, hl⟩, ha⟩

/-- The store once `ensureClockSanity` has looked at it. -/
def clocked (store : Store) : Store :=
  if .clock ∈ store then store else store.insert .clock (unsignedIntToBinaryString 0)

/-- Two staging areas that differ in their batches only. -/
def SameButBatch (s s' : StagingArea) : Prop :=
  s'.store = s.store ∧ s'.expirationCache = s.expirationCache

theorem lockstep_load :
    Lockstep SameButBatch (do loadExpirationCache; retrieveLastApplied : StagingM Int) := by
  have hinsert : ∀ deadline key, Lockstep SameButBatch (cacheInsert deadline key) := by
    intro deadline key
    refine lockstep_get fun s s' h => ?_
    rw [h.2]
    exact together_bind (lockstep_assertThat _ _ s s' h) fun _ t t' _ => ⟨rfl, h.1, rfl⟩
  have hall : ∀ events, Lockstep SameButBatch (cacheInsertAll events) := by
    intro events
    induction events with
    | nil => exact lockstep_pure _
    | cons e rest ih => exact lockstep_bind (hinsert _ _) fun _ => ih
  refine lockstep_bind (lockstep_get fun s s' h => ?_) fun _ => ?_
  · rw [h.1]
    exact hall _ s s' h
  · refine lockstep_bind (fun s s' h => ⟨?_, h⟩) fun found => ?_
    · rw [h.1]
    · split
      · exact lockstep_pure _
      · refine lockstep_bind (lockstep_modify fun s s' h => ⟨?_, h.2⟩) fun _ => lockstep_pure _
        rw [h.1]

/-- A crash between the two writes of an opening makes no difference to the next one. -/
theorem reopen_clocked {store : Store} (hm : m.store = store) (hm' : m'.store = clocked store)
    {opened : Machine} (h : reopen m = .ok opened) : reopen m' = .ok opened := by
  subst hm
  by_cases hc : StoreKey.clock ∈ m.store
  · unfold clocked at hm'
    rw [if_pos hc] at hm'
    rw [← h]
    unfold reopen
    rw [hm']
  unfold clocked at hm'
  rw [if_neg hc] at hm'
  have hnone : m.store.lookup .clock = none := AList.lookup_eq_none.mpr hc
  have hsome : m'.store.lookup .clock = some (unsignedIntToBinaryString 0) := by
    rw [hm']
    exact AList.lookup_insert _
  have hlen := length_unsignedIntToBinaryString 0
  have hfirst : Yields ensureClockSanity { store := m.store, expirationCache := [] }
      (fun _ s => SameButBatch s { store := m'.store, expirationCache := [] }) fun _ => False := by
    unfold ensureClockSanity
    rw [yields_bind, yields_keyExists]
    dsimp only
    rw [hnone, if_pos (by rfl), yields_bind, yields_put, yields_bind, yields_lookup]
    have hput : (StagingArea.putIn { store := m.store, expirationCache := [] } .clock
        (unsignedIntToBinaryString 0)).store = m'.store := hm'.symm
    rw [hput, hsome]
    dsimp only
    rw [hlen, if_neg (by simp), yields_pure]
    exact ⟨hm', rfl⟩
  have hagain : Yields ensureClockSanity { store := m'.store, expirationCache := [] }
      (fun _ s => s = { store := m'.store, expirationCache := [] }) fun _ => False := by
    unfold ensureClockSanity
    rw [yields_bind, yields_keyExists]
    dsimp only
    rw [hsome, if_neg (by simp), yields_bind, yields_lookup]
    dsimp only
    rw [hsome]
    dsimp only
    rw [hlen, if_neg (by simp), yields_pure]
  obtain ⟨_, t, ht, hst⟩ := hfirst.exists_ok
  obtain ⟨_, t', ht', rfl⟩ := hagain.exists_ok
  unfold reopen at h
  obtain ⟨⟨lastApplied, s⟩, hrun, h⟩ := ok_of_bind h
  cases h
  rw [show StateT.run (do ensureClockSanity; loadExpirationCache; retrieveLastApplied)
    { store := m.store, expirationCache := [] } = _ from bind_of_ok ht _] at hrun
  obtain ⟨s', hrun', hs⟩ := (lockstep_load _ _ hst).of_ok hrun
  rw [reopen_of_run ((bind_of_ok ht' _).trans hrun'), hs.1, hs.2]

end

/-! ## Batches -/

section

-- Doubles, and the reads: what a read answers from the store.
variable (doubles : Doubles) (reads : Store → RedisRequest → Except Fault Bytes)

/-- A read sees the store, and not what is cached. -/
def fromStore (s : StagingArea) (request : RedisRequest) : Except Fault Bytes :=
  reads s.store request

theorem lockstep_dispatchReadWrite (fuel : Nat) (request : RedisRequest) :
    Lockstep Twin (dispatchReadWrite doubles (fromStore reads) fuel request) := by
  have hread : Lockstep Twin (do
      throwing (fromStore reads (← MonadState.get) request) : StagingM Bytes) := by
    refine lockstep_get fun s s' h => ?_
    unfold fromStore
    rw [h.store]
    exact lockstep_throwing (reads s.store request) s s' h
  have hcommand := lockstep_dispatchCommand congruence_twin sameVersions_twin sameLeases_twin
    doubles
  induction fuel generalizing request with
  | zero =>
    unfold dispatchReadWrite
    split
    · exact hread
    split
    · exact hcommand request
    · exact lockstep_throw _
  | succ fuel ih =>
    unfold dispatchReadWrite
    split
    · exact hread
    split
    · exact hcommand request
    refine lockstep_bind (lockstep_throwing _) fun o => ?_
    cases o with
    | none => exact lockstep_throw _
    | some tx =>
      refine lockstep_bind (lockstep_assertThat _ _) fun _ => ?_
      refine lockstep_bind (lockstep_mapM fun inner _ => ih inner ?_) fun _ => lockstep_pure _
      refine lockstep_get fun s s' h => ?_
      unfold fromStore
      rw [h.store]
      exact lockstep_throwing (reads s.store inner) s s' h

/-- What the state machine runs for an entry of the journal. -/
def journaled (request : RedisRequest) : StagingM Bytes :=
  if getCommand request = .INVALID then pure Formatter.ok
  else dispatchOne doubles (fromStore reads) request

variable {m m' : Machine} {request : RedisRequest} {commit : Int} {reply : Bytes}

/-- With an index, a request either fails everywhere or is committed. -/
theorem dispatch_journaled (h0 : 0 < commit)
    (h : dispatch doubles (fromStore reads) m request commit = .ok (reply, m')) (m1 : Machine) :
    dispatch doubles (fromStore reads) m1 request commit =
      commitAfter m1 true commit (journaled doubles reads request) := by
  by_cases hi : getCommand request = .INVALID
  · unfold dispatch at h ⊢
    unfold journaled
    rw [if_pos hi] at h ⊢
    rw [if_pos hi]
    rcases request with _ | ⟨name, parts⟩
    · cases h
    dsimp only at h ⊢
    split at h
    · rename_i hp
      rw [if_pos hp]
    · rw [if_pos (by omega)] at h
      cases h
  · by_cases ht : getCommandType request = .WRITE
    · rw [dispatch_of_write doubles _ ht]
      unfold journaled
      rw [if_neg hi]
    · unfold dispatch at h
      rw [if_neg hi, if_pos ⟨h0, ht⟩] at h
      cases h

/-- The command of an entry, and the commit. -/
theorem commitAfter_ok {command : StagingM Bytes} (h0 : 0 < commit)
    (h : commitAfter m true commit command = .ok (reply, m')) :
    commit = m.lastApplied + 1 ∧ ∃ s, command (stage m) = .ok (reply, s) ∧ m' = {
      store := s.store.insert .lastApplied (bigInt commit)
      expirationCache := s.expirationCache
      lastApplied := commit } := by
  unfold commitAfter at h
  obtain ⟨⟨resp, s⟩, hrun, h⟩ := ok_of_bind h
  obtain ⟨m1, hc, h⟩ := ok_of_bind h
  cases h
  unfold commitTransaction at hc
  rw [if_neg (by omega), if_pos h0] at hc
  split at hc
  · cases hc
  · rename_i hi
    cases hc
    exact ⟨not_not.mp hi, s, hrun, rfl⟩

theorem commitAfter_of_run {command : StagingM Bytes} {s : StagingArea} (h0 : 0 < commit)
    (hi : commit = m.lastApplied + 1) (hrun : command (stage m) = .ok (reply, s)) :
    commitAfter m true commit command = .ok (reply, {
      store := s.store.insert .lastApplied (bigInt commit)
      expirationCache := s.expirationCache
      lastApplied := commit }) := by
  have hc : commitTransaction m s commit = .ok {
      store := s.store.insert .lastApplied (bigInt commit)
      expirationCache := s.expirationCache
      lastApplied := commit } := by
    unfold commitTransaction
    rw [if_neg (by omega), if_pos h0, if_neg (not_not.mpr hi)]
  unfold commitAfter
  rw [bind_of_ok (show command.run (stage m) = _ from hrun)]
  dsimp only
  rw [if_pos rfl, bind_of_ok hc]
  rfl

/-- Each entry is applied right after the one before it. -/
theorem dispatch_lastApplied (h0 : 0 < commit)
    (h : dispatch doubles (fromStore reads) m request commit = .ok (reply, m')) :
    commit = m.lastApplied + 1 ∧ m'.lastApplied = commit ∧
      m'.store.lookup .lastApplied = some (bigInt commit) := by
  rw [dispatch_journaled doubles reads h0 h] at h
  obtain ⟨hi, s, -, rfl⟩ := commitAfter_ok h0 h
  exact ⟨hi, rfl, AList.lookup_insert _⟩

/-- The same state machine applies an entry in the same way. -/
theorem SameMachine.dispatch {m1 : Machine} (hs : SameMachine m m1) (h0 : 0 < commit)
    (h : dispatch doubles (fromStore reads) m request commit = .ok (reply, m')) :
    ∃ m1', RedisDispatcher.dispatch doubles (fromStore reads) m1 request commit = .ok (reply, m1') ∧
      SameMachine m' m1' := by
  have hlock : Lockstep Twin (journaled doubles reads request) := by
    unfold journaled
    split
    · exact lockstep_pure _
    · exact lockstep_dispatchReadWrite doubles reads _ _
  have hboth := dispatch_journaled doubles reads h0 h
  rw [hboth] at h ⊢
  obtain ⟨hi, s, hrun, rfl⟩ := commitAfter_ok h0 h
  obtain ⟨s1, hrun1, ht⟩ := (hlock _ _ hs.1).of_ok hrun
  refine ⟨_, commitAfter_of_run h0 ?_ hrun1, ⟨?_, rfl, rfl, ht.cache, ht.left, ht.right⟩, rfl⟩
  · rw [hs.2]
    exact hi
  · exact congrArg (AList.insert .lastApplied (bigInt commit)) ht.store

/-- What an entry leaves can be opened again. -/
theorem restorable_dispatch (hm : m.Restorable) (h0 : 0 < commit) (hl : commit < 2 ^ 63)
    (h : dispatch doubles (fromStore reads) m request commit = .ok (reply, m')) :
    m'.Restorable := by
  obtain ⟨bytes, hr, -⟩ := hm
  have hkeeps : Keeps (quarkdb.Restorable (some bytes)) (fun _ => True)
      (journaled doubles reads request) := by
    unfold journaled
    split
    · exact keeps_pure _
    · refine keeps_dispatchReadWrite doubles _ (fun _ => True) (fun request _ _ _ => ?_) _
        fun _ _ => trivial
      exact keeps_dispatchCommand_restorable doubles request
  rw [dispatch_journaled doubles reads h0 h] at h
  obtain ⟨-, s, hrun, rfl⟩ := commitAfter_ok h0 h
  have hs := (hkeeps _ hr).of_ok hrun
  refine ⟨bigInt commit, ⟨fun t key => ?_, hs.line, ?_, AList.lookup_insert _⟩,
    ofBigInt_bigInt (by omega) hl⟩
  · exact (mem_congr (AList.lookup_insert_ne (by nofun))).trans (hs.events t key)
  · obtain ⟨value, hv, hlen⟩ := hs.clock
    exact ⟨value, (AList.lookup_insert_ne (by nofun)).trans hv, hlen⟩

/-! ## Replays -/

/-- Apply entries, each with its index. -/
def replay (m : Machine) : List (Int × RedisRequest) → Except Fault Machine
  | [] => .ok m
  | (index, request) :: rest => do
    let (_, m) ← dispatch doubles (fromStore reads) m request index
    replay m rest

theorem replay_snoc {history : List (Int × RedisRequest)} {m0 : Machine}
    (h : replay doubles reads m0 history = .ok m)
    (hd : dispatch doubles (fromStore reads) m request commit = .ok (reply, m')) :
    replay doubles reads m0 (history ++ [(commit, request)]) = .ok m' := by
  induction history generalizing m0 with
  | nil =>
    cases h
    unfold replay
    rw [List.nil_append]
    dsimp only
    rw [bind_of_ok hd]
    rfl
  | cons e rest ih =>
    obtain ⟨⟨resp, m1⟩, h1, h⟩ := ok_of_bind h
    unfold replay
    rw [List.cons_append]
    dsimp only
    rw [bind_of_ok h1]
    exact ih h

/-- No index is left out, and none comes twice. -/
theorem replay_consecutive {history : List (Int × RedisRequest)} {m0 : Machine}
    (h0 : ∀ e ∈ history, 0 < e.1) (h : replay doubles reads m0 history = .ok m) :
    m.lastApplied = m0.lastApplied + history.length ∧
      history.map Prod.fst = (List.range history.length).map fun k : Nat => m0.lastApplied + 1 + k := by
  induction history generalizing m0 with
  | nil =>
    cases h
    exact ⟨(Int.add_zero _).symm, rfl⟩
  | cons e rest ih =>
    obtain ⟨⟨resp, m1⟩, h1, h⟩ := ok_of_bind h
    obtain ⟨hi, hm, -⟩ := dispatch_lastApplied doubles reads (h0 e List.mem_cons_self) h1
    obtain ⟨hlast, hmap⟩ := ih (fun e' he => h0 e' (List.mem_cons_of_mem e he)) h
    rw [hm, hi] at hlast hmap
    refine ⟨?_, ?_⟩
    · rw [hlast, List.length_cons]
      push_cast
      omega
    · rw [List.map_cons, hmap, List.length_cons, List.range_succ_eq_map, List.map_cons, List.map_map]
      refine congrArg₂ List.cons ?_ (List.map_congr_left fun k _ => ?_)
      · rw [hi]
        simp
      · simp only [Function.comp_apply]
        push_cast
        omega

end

end quarkdb
