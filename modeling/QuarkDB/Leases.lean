-- Leases: a deadline is kept in the descriptor of the lease, in an expiration event and in
-- the expiration cache, and all three agree whatever is done to the keys.
import QuarkDB.Batches
import QuarkDB.Counters
import QuarkDB.Frames

namespace quarkdb

open Endian StateMachine StagingArea Outcome RedisDispatcher

/-! ## Opening a state machine -/

namespace StateMachine

def eventOf : StoreKey → Option (UInt64 × Bytes)
  | .expirationEvent deadline key => some (deadline, key)
  | _ => none

/-- The order of the keys in the store: first the deadline, then the name of the lease. -/
def eventLe (e e' : UInt64 × Bytes) : Bool := e.1 < e'.1 || (e.1 == e'.1 && bytesLe e.2 e'.2)

/-- What `ExpirationEventIterator` finds. -/
def expirationEvents (store : Store) : List (UInt64 × Bytes) :=
  (store.keys.filterMap eventOf).mergeSort eventLe

/-- The loop of `loadExpirationCache`. -/
def cacheInsertAll : List (UInt64 × Bytes) → StagingM Unit
  | [] => pure ()
  | (deadline, key) :: rest => do
    cacheInsert deadline key
    cacheInsertAll rest

def loadExpirationCache : StagingM Unit := do
  cacheInsertAll (expirationEvents (← MonadState.get).store)

/-- `ensureClockSanity`, for a state machine that was there before. -/
def ensureClockSanity : StagingM Unit := do
  if !(← keyExists .clock) then put .clock (unsignedIntToBinaryString 0)
  match ← get .clock with
  | none => throw (.thrown "Error when reading __clock: ")
  | some value =>
    if value.length ≠ 8 then throw (.thrown "Detected corruption of __clock, received size ")

def retrieveLastApplied : StagingM Int := do
  match ← get .lastApplied with
  | some tmp => return ofBigInt tmp
  | none =>
    put .lastApplied (bigInt 0)
    return 0

end StateMachine

/-- The state machine is opened again, on the store that it left. -/
def reopen (m : Machine) : Except Fault Machine := do
  let opening : StagingM Int := do
    ensureClockSanity
    loadExpirationCache
    retrieveLastApplied
  let (lastApplied, s) ← opening.run { store := m.store, expirationCache := [] }
  return { store := s.store, expirationCache := s.expirationCache, lastApplied }

/-! ## The ledger -/

/-- The descriptor of a key says that it is a lease, and until when. -/
def Leased (store : Store) (key : Bytes) (deadline : UInt64) : Prop :=
  ∃ bytes d, store.lookup (.descriptor key) = some bytes ∧ KeyDescriptor.ofBytes bytes = .ok d ∧
    d.keyType = .kLease ∧ d.endIndex = deadline

/-- The three places where deadlines are kept agree, a lease has one deadline, and none has
passed. -/
structure Ledger (now : UInt64) (store : Store) (cache : List (UInt64 × Bytes)) : Prop where
  events : ∀ deadline key, .expirationEvent deadline key ∈ store ↔ (deadline, key) ∈ cache
  leases : ∀ deadline key, Leased store key deadline ↔ (deadline, key) ∈ cache
  holders : ∀ key, .lease key ∈ store ↔ ∃ deadline, (deadline, key) ∈ cache
  once : (cache.map Prod.snd).Nodup
  sorted : cache.Pairwise fun e e' => e.1 ≤ e'.1
  valid : ∀ key bytes, store.lookup (.descriptor key) = some bytes →
    ∃ d, KeyDescriptor.ofBytes bytes = .ok d
  clock : store.lookup .clock = some (unsignedIntToBinaryString now)
  ahead : ∀ e ∈ cache, now < e.1

theorem mem_congr {store store' : Store} {k : StoreKey} (h : store'.lookup k = store.lookup k) :
    k ∈ store' ↔ k ∈ store := by
  rw [← AList.lookup_isSome, ← AList.lookup_isSome, h]

theorem Leased.congr {store store' : Store} {key : Bytes} {deadline : UInt64}
    (h : store'.lookup (.descriptor key) = store.lookup (.descriptor key)) :
    Leased store' key deadline ↔ Leased store key deadline := by
  unfold Leased
  rw [h]

section

variable {now : UInt64} {store store' : Store} {cache cache' : List (UInt64 × Bytes)} {key : Bytes}

/-- One key gets a new deadline, or none. -/
theorem Ledger.update (h : Ledger now store cache) (key : Bytes) (entry : Option UInt64)
    (hsame : ∀ k : StoreKey, k.owner ≠ some key → store'.lookup k = store.lookup k)
    (hmem : ∀ deadline key', (deadline, key') ∈ cache' ↔
      if key' = key then entry = some deadline else (deadline, key') ∈ cache)
    (honce : (cache'.map Prod.snd).Nodup) (hsorted : cache'.Pairwise fun e e' => e.1 ≤ e'.1)
    (hevents : ∀ deadline, .expirationEvent deadline key ∈ store' ↔ entry = some deadline)
    (hleases : ∀ deadline, Leased store' key deadline ↔ entry = some deadline)
    (hholder : .lease key ∈ store' ↔ ∃ deadline, entry = some deadline)
    (hvalid : ∀ bytes, store'.lookup (.descriptor key) = some bytes →
      ∃ d, KeyDescriptor.ofBytes bytes = .ok d)
    (hahead : ∀ deadline, entry = some deadline → now < deadline) : Ledger now store' cache' := by
  have hne : ∀ {key' : Bytes}, key' ≠ key → some key' ≠ some key :=
    fun hk he => hk (Option.some.inj he)
  refine ⟨?_, ?_, ?_, honce, hsorted, ?_, ?_, ?_⟩
  · intro deadline key'
    rw [hmem]
    split
    · rename_i he
      rw [he]
      exact hevents deadline
    · rename_i hk
      rw [mem_congr (hsame (.expirationEvent deadline key') (hne hk))]
      exact h.events deadline key'
  · intro deadline key'
    rw [hmem]
    split
    · rename_i he
      rw [he]
      exact hleases deadline
    · rename_i hk
      rw [Leased.congr (hsame (.descriptor key') (hne hk))]
      exact h.leases deadline key'
  · intro key'
    by_cases hk : key' = key
    · rw [hk, hholder]
      apply exists_congr
      intro deadline
      rw [hmem, if_pos rfl]
    · rw [mem_congr (hsame (.lease key') (hne hk)), h.holders]
      apply exists_congr
      intro deadline
      rw [hmem, if_neg hk]
  · intro key' bytes hb
    by_cases hk : key' = key
    · rw [hk] at hb
      exact hvalid bytes hb
    · rw [hsame (.descriptor key') (hne hk)] at hb
      exact h.valid key' bytes hb
  · rw [hsame .clock nofun]
    exact h.clock
  · rintro ⟨deadline, key'⟩ he
    rw [hmem] at he
    split at he
    · exact hahead deadline he
    · exact h.ahead (deadline, key') he

/-- The records of leases stay, and the clock may move. -/
theorem Ledger.transfer {now' : UInt64} (h : Ledger now store cache)
    (hsame : ∀ k : StoreKey, k.dataType = some .kLease → store'.lookup k = store.lookup k)
    (hleased : ∀ deadline key, Leased store' key deadline ↔ Leased store key deadline)
    (hvalid : ∀ key bytes, store'.lookup (.descriptor key) = some bytes →
      ∃ d, KeyDescriptor.ofBytes bytes = .ok d)
    (hclock : store'.lookup .clock = some (unsignedIntToBinaryString now'))
    (hahead : ∀ e ∈ cache, now' < e.1) : Ledger now' store' cache := by
  refine ⟨?_, ?_, ?_, h.once, h.sorted, hvalid, hclock, hahead⟩
  · intro deadline key
    rw [mem_congr (hsame (.expirationEvent deadline key) rfl)]
    exact h.events deadline key
  · intro deadline key
    rw [hleased]
    exact h.leases deadline key
  · intro key
    rw [mem_congr (hsame (.lease key) rfl)]
    exact h.holders key

theorem Ledger.congr (h : Ledger now store cache) (hsame : ∀ k, store'.lookup k = store.lookup k) :
    Ledger now store' cache := by
  refine h.transfer (fun k _ => hsame k) (fun _ _ => Leased.congr (hsame _)) ?_ ?_ h.ahead
  · intro key bytes hb
    rw [hsame] at hb
    exact h.valid key bytes hb
  · rw [hsame]
    exact h.clock

/-- What was applied last does not matter to leases. -/
theorem Ledger.unapplied (h : Ledger now store cache)
    (hsame : ∀ k ≠ .lastApplied, store'.lookup k = store.lookup k) : Ledger now store' cache := by
  have hd : ∀ key, store'.lookup (.descriptor key) = store.lookup (.descriptor key) :=
    fun key => hsame _ (by nofun)
  refine h.transfer ?_ (fun _ _ => Leased.congr (hd _)) ?_ ?_ h.ahead
  · intro k hk
    apply hsame
    rintro rfl
    cases hk
  · intro key bytes hb
    rw [hd] at hb
    exact h.valid key bytes hb
  · rw [hsame _ (by nofun)]
    exact h.clock

/-- A lease has one deadline. -/
theorem Ledger.unique (h : Ledger now store cache) {deadline deadline' : UInt64}
    (hm : (deadline, key) ∈ cache) (hm' : (deadline', key) ∈ cache) : deadline = deadline' := by
  have he := List.inj_on_of_nodup_map h.once hm hm' rfl
  exact congrArg Prod.fst he

/-- A key without a lease has a descriptor of another type, or none. -/
theorem Ledger.not_leased (h : Ledger now store cache) (hn : ∀ deadline, (deadline, key) ∉ cache)
    {bytes : Bytes} {d : KeyDescriptor} (hl : store.lookup (.descriptor key) = some bytes)
    (hd : KeyDescriptor.ofBytes bytes = .ok d) : d.keyType ≠ .kLease := by
  intro ht
  exact hn d.endIndex ((h.leases _ _).mp ⟨bytes, d, hl, hd, ht, rfl⟩)

theorem mem_erase_of_once (honce : (cache.map Prod.snd).Nodup) {deadline : UInt64}
    (hm : (deadline, key) ∈ cache) (t : UInt64) (key' : Bytes) :
    (t, key') ∈ cache.erase (deadline, key) ↔ key' ≠ key ∧ (t, key') ∈ cache := by
  rw [(List.Nodup.of_map Prod.snd honce).mem_erase_iff]
  constructor
  · rintro ⟨hne, hc⟩
    refine ⟨fun hk => hne ?_, hc⟩
    exact List.inj_on_of_nodup_map honce hc hm hk
  · rintro ⟨hk, hc⟩
    exact ⟨fun he => hk (congrArg Prod.snd he), hc⟩

theorem once_erase (honce : (cache.map Prod.snd).Nodup) (e : UInt64 × Bytes) :
    ((cache.erase e).map Prod.snd).Nodup :=
  honce.sublist (List.erase_sublist.map Prod.snd)

end

/-! ## Releases -/

/-- A lease is gone from all places. -/
def StagingArea.released (s : StagingArea) (deadline : UInt64) (key : Bytes) : StagingArea :=
  { ((s.delIn (.expirationEvent deadline key)).delIn (.lease key)).delIn (.descriptor key) with
    expirationCache := s.expirationCache.erase (deadline, key) }

section

variable {now : UInt64} {s : StagingArea} {key : Bytes} {deadline : UInt64} {fault : Fault → Prop}

theorem lookup_released {k : StoreKey} (h1 : k ≠ .expirationEvent deadline key)
    (h2 : k ≠ .lease key) (h3 : k ≠ .descriptor key) :
    (s.released deadline key).store.lookup k = s.store.lookup k := by
  unfold StagingArea.released StagingArea.delIn
  dsimp only
  rw [AList.lookup_erase_ne h3, AList.lookup_erase_ne h2, AList.lookup_erase_ne h1]

theorem lookup_released_of_owner {k : StoreKey} (h : k.owner ≠ some key) :
    (s.released deadline key).store.lookup k = s.store.lookup k := by
  apply lookup_released
  · rintro rfl
    exact h rfl
  · rintro rfl
    exact h rfl
  · rintro rfl
    exact h rfl

theorem descriptor_released : (s.released deadline key).store.lookup (.descriptor key) = none :=
  AList.lookup_erase _ _

theorem holder_released : .lease key ∉ (s.released deadline key).store := by
  intro hm
  have hm' := (AList.mem_erase.mp hm).2
  exact (AList.mem_erase.mp hm').1 rfl

theorem Ledger.released (h : Ledger now s.store s.expirationCache)
    (hm : (deadline, key) ∈ s.expirationCache) :
    Ledger now (s.released deadline key).store (s.released deadline key).expirationCache := by
  refine h.update key none (fun k hk => lookup_released_of_owner hk) ?_
    (once_erase h.once _) (h.sorted.sublist List.erase_sublist) ?_ ?_ ?_ ?_ nofun
  · intro t key'
    show (t, key') ∈ s.expirationCache.erase (deadline, key) ↔ _
    rw [mem_erase_of_once h.once hm]
    split
    · rename_i hk
      simp [hk]
    · rename_i hk
      simp [hk]
  · intro t
    constructor
    · intro he
      by_cases ht : t = deadline
      · rw [ht] at he
        have hm1 := (AList.mem_erase.mp (AList.mem_erase.mp (AList.mem_erase.mp he).2).2).1
        exact absurd rfl hm1
      · have hne : StoreKey.expirationEvent t key ≠ .expirationEvent deadline key := by
          intro hc
          cases hc
          exact ht rfl
        rw [mem_congr (lookup_released hne nofun nofun), h.events] at he
        exact absurd (h.unique he hm) ht
    · nofun
  · intro t
    constructor
    · rintro ⟨bytes, d, hl, -⟩
      rw [descriptor_released] at hl
      cases hl
    · nofun
  · constructor
    · intro hl
      exact absurd hl holder_released
    · rintro ⟨t, ht⟩
      cases ht
  · intro bytes hl
    rw [descriptor_released] at hl
    cases hl

theorem yields_mustExist {k : StoreKey} (hk : k ∈ s.store) {post : Unit → StagingArea → Prop} :
    Yields (mustExist k) s post fault ↔ post () s := by
  unfold mustExist
  rw [yields_bind, yields_keyExists, AList.lookup_isSome.mpr hk]
  exact Iff.rfl

theorem yields_cacheRemove (hm : (deadline, key) ∈ s.expirationCache)
    {post : Unit → StagingArea → Prop} :
    Yields (cacheRemove deadline key) s post fault ↔
      post () { s with expirationCache := s.expirationCache.erase (deadline, key) } := by
  unfold cacheRemove
  rw [yields_bind, yields_get, if_pos hm, yields_set]

/-- A lease that is held is released. -/
theorem yields_leaseRelease (h : Ledger now s.store s.expirationCache)
    (hm : (deadline, key) ∈ s.expirationCache) {post : Status → StagingArea → Prop} :
    Yields (leaseRelease key) s post fault ↔ post .OK (s.released deadline key) := by
  obtain ⟨bytes, d, hl, hd, ht, rfl⟩ := (h.leases deadline key).mpr hm
  have hevent : StoreKey.expirationEvent d.endIndex key ∈ s.store := (h.events _ _).mpr hm
  have hholder : StoreKey.lease key ∈ s.store := (h.holders key).mpr ⟨_, hm⟩
  unfold leaseRelease
  rw [yields_withOperation_known hl hd ht nofun]
  simp only [Bool.not_true, Bool.false_eq_true, if_false]
  rw [yields_bind, yields_mustExist hevent, yields_bind, yields_cacheRemove hm, yields_bind,
    yields_del, yields_bind, yields_mustExist, yields_bind, yields_del, yields_bind,
    yields_finalize_gone rfl (by rw [ht]; nofun), yields_pure]
  · rfl
  · exact AList.mem_erase.mpr ⟨nofun, hholder⟩

/-- There is no lease to release on a key without a descriptor. -/
theorem yields_leaseRelease_unknown (hn : s.store.lookup (.descriptor key) = none)
    {post : Status → StagingArea → Prop} :
    Yields (leaseRelease key) s post fault ↔ post .NotFound (s.delIn (.descriptor key)) := by
  unfold leaseRelease
  rw [yields_withOperation_fresh hn]
  simp only [WriteOperation.fresh, Bool.not_false, if_true, reduceCtorEq, if_false]
  rw [yields_bind, yields_finalize_gone rfl (by nofun), yields_pure]

/-- A key that is no lease is left alone. -/
theorem yields_leaseRelease_free (h : Ledger now s.store s.expirationCache)
    (hn : ∀ deadline, (deadline, key) ∉ s.expirationCache) {post : Status → StagingArea → Prop}
    (hnone : s.store.lookup (.descriptor key) = none →
      post .NotFound (s.delIn (.descriptor key)))
    (hother : s.store.lookup (.descriptor key) ≠ none → post wrongType s) :
    Yields (leaseRelease key) s post fault := by
  rcases hl : s.store.lookup (.descriptor key) with _ | bytes
  · rw [yields_leaseRelease_unknown hl]
    exact hnone hl
  · obtain ⟨d, hd⟩ := h.valid key bytes hl
    have ht := h.not_leased hn hl hd
    unfold leaseRelease withOperation WriteOperation.start getKeyDescriptor
    rw [yields_bind, yields_bind, yields_bind, yields_lookup, hl]
    dsimp only
    rw [hd, throwing_ok, yields_pure, ofBytes_not_empty hd, if_neg nofun, yields_pure,
      if_neg (by simp [ht]), yields_pure]
    exact hother (by rw [hl]; nofun)

theorem Ledger.forget (h : Ledger now s.store s.expirationCache)
    (hn : s.store.lookup (.descriptor key) = none) :
    Ledger now (s.delIn (.descriptor key)).store (s.delIn (.descriptor key)).expirationCache := by
  refine h.congr fun k => ?_
  show (s.store.erase (.descriptor key)).lookup k = _
  by_cases hk : k = .descriptor key
  · rw [hk, AList.lookup_erase, hn]
  · exact AList.lookup_erase_ne hk

end

/-! ## The clock -/

/-- All leases that are due go, and nothing else but the clock changes. -/
structure Expired (newValue : UInt64) (s s' : StagingArea) : Prop where
  cache : s'.expirationCache = s.expirationCache.filter fun e => newValue < e.1
  gone : ∀ e ∈ s.expirationCache, e.1 ≤ newValue → s'.store.lookup (.descriptor e.2) = none
  others : ∀ k : StoreKey, k ≠ .clock →
    (∀ e ∈ s.expirationCache, e.1 ≤ newValue → k.owner ≠ some e.2) →
    s'.store.lookup k = s.store.lookup k

/-- The clock after a request that carries a time: it is never set back. -/
def later (now clockUpdate : UInt64) : UInt64 := if now < clockUpdate then clockUpdate else now

theorem le_later (now clockUpdate : UInt64) : now ≤ later now clockUpdate := by
  unfold later
  split
  · rename_i h
    exact UInt64.le_of_lt h
  · exact UInt64.le_refl now

theorem update_le_later (now clockUpdate : UInt64) : clockUpdate ≤ later now clockUpdate := by
  unfold later
  split
  · exact UInt64.le_refl clockUpdate
  · rename_i h
    exact UInt64.not_lt.mp h

section

variable {now : UInt64} {s : StagingArea} {fault : Fault → Prop}

theorem Expired.of_ahead {newValue : UInt64} (h : ∀ e ∈ s.expirationCache, newValue < e.1) :
    Expired newValue s s := by
  refine ⟨?_, ?_, fun _ _ _ => rfl⟩
  · symm
    apply List.filter_eq_self.mpr
    intro e he
    exact decide_eq_true (h e he)
  · intro e he hle
    exact absurd (h e he) (UInt64.not_lt.mpr hle)

/-- The first lease that is due, and then the others. -/
theorem Expired.cons {newValue deadline : UInt64} {key : Bytes} {rest : List (UInt64 × Bytes)}
    {s' : StagingArea} (hc : s.expirationCache = (deadline, key) :: rest) (hle : deadline ≤ newValue)
    (h : Expired newValue (s.released deadline key) s') : Expired newValue s s' := by
  have hr : (s.released deadline key).expirationCache = rest := by
    show s.expirationCache.erase (deadline, key) = rest
    rw [hc, List.erase_cons_head]
  obtain ⟨h1, h2, h3⟩ := h
  rw [hr] at h1 h2 h3
  refine ⟨?_, ?_, ?_⟩
  · rw [h1, hc, List.filter_cons_of_neg]
    simpa using hle
  · intro e he hl
    rw [hc, List.mem_cons] at he
    rcases he with rfl | he
    · by_cases hm : ∃ e' ∈ rest, e'.1 ≤ newValue ∧ e'.2 = key
      · obtain ⟨e', he', hl', rfl⟩ := hm
        exact h2 e' he' hl'
      · rw [h3 (.descriptor key) nofun]
        · exact descriptor_released
        · intro e' he' hl' ho
          exact hm ⟨e', he', hl', (Option.some.inj ho).symm⟩
    · exact h2 e he hl
  · intro k hk hn
    rw [hc] at hn
    rw [h3 k hk fun e he => hn e (List.mem_cons_of_mem _ he)]
    exact lookup_released_of_owner (hn (deadline, key) List.mem_cons_self hle)

/-- The loop ends when nothing that is due is left. -/
theorem yields_releaseExpired (newValue : UInt64) {fuel : Nat}
    (h : Ledger now s.store s.expirationCache) (hf : s.expirationCache.length ≤ fuel) :
    Yields (releaseExpired fuel newValue) s (fun _ s' =>
      Ledger now s'.store s'.expirationCache ∧ Expired newValue s s') fault := by
  induction fuel generalizing s with
  | zero =>
    have hc : s.expirationCache = [] := List.length_eq_zero_iff.mp (by omega)
    refine ⟨h, Expired.of_ahead ?_⟩
    rw [hc]
    nofun
  | succ fuel ih =>
    unfold releaseExpired
    rw [yields_bind, yields_get]
    rcases hc : s.expirationCache with _ | ⟨⟨deadline, key⟩, rest⟩
    · rw [yields_pure]
      refine ⟨h, Expired.of_ahead ?_⟩
      rw [hc]
      nofun
    dsimp only
    have hm : (deadline, key) ∈ s.expirationCache := by
      rw [hc]
      exact List.mem_cons_self
    split
    · rename_i hle
      rw [yields_bind, yields_leaseRelease h hm, show Status.ok .OK = true from rfl,
        assertThat_true, pure_bind]
      refine (ih (h.released hm) ?_).mono fun _ s' hs => ⟨hs.1, hs.2.cons hc hle⟩
      show (s.expirationCache.erase (deadline, key)).length ≤ fuel
      rw [hc, List.erase_cons_head]
      rw [hc, List.length_cons] at hf
      omega
    · rename_i hlt
      rw [yields_pure]
      refine ⟨h, Expired.of_ahead ?_⟩
      have hs := h.sorted
      rw [hc, List.pairwise_cons] at hs
      intro e he
      rw [hc, List.mem_cons] at he
      rcases he with rfl | he
      · exact UInt64.not_le.mp hlt
      · exact UInt64.lt_of_lt_of_le (UInt64.not_le.mp hlt) (hs.1 e he)

theorem yields_getClock_of_lookup
    (hclock : s.store.lookup .clock = some (unsignedIntToBinaryString now))
    {post : UInt64 → StagingArea → Prop} : Yields getClock s post fault ↔ post now s := by
  have hlen : (unsignedIntToBinaryString now).length = 8 := by
    unfold unsignedIntToBinaryString
    rw [List.length_reverse, length_toLittle]
  unfold getClock
  rw [yields_bind, yields_lookup, hclock]
  dsimp only
  rw [hlen, if_neg (by simp), yields_pure, binaryStringToUnsignedInt_unsignedIntToBinaryString]

theorem yields_getClock (h : Ledger now s.store s.expirationCache)
    {post : UInt64 → StagingArea → Prop} : Yields getClock s post fault ↔ post now s :=
  yields_getClock_of_lookup h.clock

theorem Ledger.tick {store : Store} {cache : List (UInt64 × Bytes)} {newValue : UInt64}
    (h : Ledger now store cache) (hahead : ∀ e ∈ cache, newValue < e.1) :
    Ledger newValue (store.insert .clock (unsignedIntToBinaryString newValue)) cache := by
  have hsame : ∀ k : StoreKey, k ≠ .clock →
      (store.insert .clock (unsignedIntToBinaryString newValue)).lookup k = store.lookup k :=
    fun k hk => AList.lookup_insert_ne hk
  refine h.transfer ?_ (fun _ _ => Leased.congr (hsame _ (by nofun))) ?_ (AList.lookup_insert _)
    hahead
  · intro k hk
    apply hsame
    rintro rfl
    cases hk
  · intro key bytes hb
    rw [hsame _ (by nofun)] at hb
    exact h.valid key bytes hb

/-- To advance the clock releases the leases that are due. -/
theorem yields_advanceClock {newValue : UInt64} (h : Ledger now s.store s.expirationCache)
    (hle : now ≤ newValue) :
    Yields (advanceClock newValue) s (fun _ s' =>
      Ledger newValue s'.store s'.expirationCache ∧ Expired newValue s s') fault := by
  unfold advanceClock
  rw [yields_bind, yields_getClock h]
  dsimp only
  rw [if_neg (UInt64.not_lt.mpr hle), yields_bind, yields_get, yields_bind]
  refine (yields_releaseExpired newValue h (Nat.le_refl _)).mono fun _ s' hs => ?_
  obtain ⟨hl, he⟩ := hs
  rw [yields_put]
  refine ⟨hl.tick ?_, he.cache, ?_, ?_⟩
  · intro e hm
    rw [he.cache, List.mem_filter] at hm
    exact of_decide_eq_true hm.2
  · intro e hm hd
    show (s'.store.insert .clock _).lookup _ = none
    rw [AList.lookup_insert_ne (by nofun)]
    exact he.gone e hm hd
  · intro k hk hn
    show (s'.store.insert .clock _).lookup k = _
    rw [AList.lookup_insert_ne hk]
    exact he.others k hk hn

theorem yields_maybeAdvanceClock (clockUpdate : UInt64)
    (h : Ledger now s.store s.expirationCache) :
    Yields (maybeAdvanceClock clockUpdate) s (fun clock s' => clock = later now clockUpdate ∧
      Ledger (later now clockUpdate) s'.store s'.expirationCache ∧
      Expired (later now clockUpdate) s s') fault := by
  unfold maybeAdvanceClock later
  rw [yields_bind, yields_getClock h]
  split
  · rename_i hlt
    rw [yields_bind]
    refine (yields_advanceClock h (UInt64.le_of_lt hlt)).mono fun _ s' hs => ?_
    exact ⟨rfl, hs.1, hs.2⟩
  · rw [yields_pure]
    exact ⟨rfl, h, Expired.of_ahead h.ahead⟩

end

/-! ## Acquisitions -/

/-- A deadline is put in its place. -/
def placed (deadline : UInt64) (key : Bytes) (cache : List (UInt64 × Bytes)) :
    List (UInt64 × Bytes) :=
  cache.takeWhile (fun e => e.1 ≤ deadline) ++ (deadline, key) ::
    cache.dropWhile (fun e => e.1 ≤ deadline)

section

variable {deadline : UInt64} {key : Bytes} {cache : List (UInt64 × Bytes)}

theorem placed_perm : (placed deadline key cache).Perm ((deadline, key) :: cache) := by
  unfold placed
  refine List.perm_middle.trans (List.Perm.cons _ ?_)
  rw [List.takeWhile_append_dropWhile]

theorem mem_placed {e : UInt64 × Bytes} :
    e ∈ placed deadline key cache ↔ e = (deadline, key) ∨ e ∈ cache := by
  rw [placed_perm.mem_iff, List.mem_cons]

theorem once_placed (honce : (cache.map Prod.snd).Nodup) (hn : ∀ t, (t, key) ∉ cache) :
    ((placed deadline key cache).map Prod.snd).Nodup := by
  rw [(placed_perm.map Prod.snd).nodup_iff, List.map_cons, List.nodup_cons]
  refine ⟨?_, honce⟩
  intro hm
  obtain ⟨⟨t, key'⟩, he, rfl⟩ := List.mem_map.mp hm
  exact hn t he

theorem lt_of_mem_dropWhile (h : cache.Pairwise fun e e' => e.1 ≤ e'.1) {e : UInt64 × Bytes}
    (he : e ∈ cache.dropWhile fun e => e.1 ≤ deadline) : deadline < e.1 := by
  induction cache with
  | nil => cases he
  | cons first rest ih =>
    rw [List.pairwise_cons] at h
    rw [List.dropWhile_cons] at he
    split at he
    · exact ih h.2 he
    · rename_i hle
      have hlt : deadline < first.1 := by simpa using hle
      rcases List.mem_cons.mp he with rfl | he
      · exact hlt
      · exact UInt64.lt_of_lt_of_le hlt (h.1 e he)

theorem sorted_placed (h : cache.Pairwise fun e e' => e.1 ≤ e'.1) :
    (placed deadline key cache).Pairwise fun e e' => e.1 ≤ e'.1 := by
  have hdrop : ∀ e ∈ cache.dropWhile (fun e => e.1 ≤ deadline), deadline < e.1 :=
    fun e he => lt_of_mem_dropWhile h he
  unfold placed
  rw [List.pairwise_append]
  refine ⟨h.sublist (List.takeWhile_sublist _), ?_, ?_⟩
  · rw [List.pairwise_cons]
    refine ⟨?_, h.sublist (List.dropWhile_sublist _)⟩
    intro e he
    exact UInt64.le_of_lt (hdrop e he)
  · intro e he e' he'
    have hle : e.1 ≤ deadline := of_decide_eq_true (List.all_eq_true.mp List.all_takeWhile e he)
    rcases List.mem_cons.mp he' with rfl | he'
    · exact hle
    · exact UInt64.le_trans hle (UInt64.le_of_lt (hdrop e' he'))

end

/-- What a key has once a lease on it is granted. -/
structure Granted (key value : Bytes) (deadline : UInt64) (s s' : StagingArea) : Prop where
  cache : ∀ t key', (t, key') ∈ s'.expirationCache ↔
    if key' = key then some deadline = some t else (t, key') ∈ s.expirationCache
  holder : s'.store.lookup (.lease key) = some value
  others : ∀ k : StoreKey, k.owner ≠ some key → s'.store.lookup k = s.store.lookup k

section

variable {now : UInt64} {s : StagingArea} {key value : Bytes} {deadline : UInt64}
  {fault : Fault → Prop}

theorem yields_cacheInsert (hn : ∀ t, (t, key) ∉ s.expirationCache)
    {post : Unit → StagingArea → Prop} :
    Yields (cacheInsert deadline key) s post fault ↔
      post () { s with expirationCache := placed deadline key s.expirationCache } := by
  have ha : (s.expirationCache.any fun e : UInt64 × Bytes => e.2 = key) = false := by
    rw [List.any_eq_false]
    intro e he hk
    exact hn e.1 (by rw [← of_decide_eq_true hk]; exact he)
  unfold cacheInsert
  rw [yields_bind, yields_get, ha, Bool.not_false, assertThat_true, pure_bind, yields_set]
  exact Iff.rfl

/-- The staging area in which a lease is granted. -/
def StagingArea.granted (s : StagingArea) (key value : Bytes) (deadline : UInt64)
    (descriptor : Bytes) : StagingArea :=
  { ((s.putIn (.expirationEvent deadline key) (ascii "1")).putIn (.lease key) value).putIn
      (.descriptor key) descriptor with
    expirationCache := placed deadline key s.expirationCache }

theorem lookup_granted {k : StoreKey} {descriptor : Bytes}
    (h1 : k ≠ .expirationEvent deadline key) (h2 : k ≠ .lease key) (h3 : k ≠ .descriptor key) :
    (s.granted key value deadline descriptor).store.lookup k = s.store.lookup k := by
  unfold StagingArea.granted StagingArea.putIn
  dsimp only
  rw [AList.lookup_insert_ne h3, AList.lookup_insert_ne h2, AList.lookup_insert_ne h1]

/-- What is left of a lease when its deadline is taken out, to be renewed. -/
def StagingArea.lapsed (s : StagingArea) (deadline : UInt64) (key : Bytes) : StagingArea :=
  { s.delIn (.expirationEvent deadline key) with
    expirationCache := s.expirationCache.erase (deadline, key) }

/-- A lease is granted on a key that has no deadline any more. -/
theorem granted_of_no_deadline {s0 : StagingArea} {descriptor : Bytes}
    (hsame : ∀ k : StoreKey, k.owner ≠ some key → s.store.lookup k = s0.store.lookup k)
    (hcache : ∀ t key', (t, key') ∈ s.expirationCache ↔
      key' ≠ key ∧ (t, key') ∈ s0.expirationCache) :
    Granted key value deadline s0 (s.granted key value deadline descriptor) := by
  refine ⟨?_, ?_, ?_⟩
  · intro t key'
    show (t, key') ∈ placed deadline key s.expirationCache ↔ _
    rw [mem_placed, hcache]
    split
    · rename_i hk
      simp [hk, eq_comm]
    · rename_i hk
      simp [hk]
  · unfold StagingArea.granted StagingArea.putIn
    dsimp only
    rw [AList.lookup_insert_ne (by nofun)]
    exact AList.lookup_insert _
  · intro k hk
    rw [lookup_granted, hsame k hk]
    · rintro rfl
      exact hk rfl
    · rintro rfl
      exact hk rfl
    · rintro rfl
      exact hk rfl

theorem Ledger.granted {s0 : StagingArea} (h : Ledger now s0.store s0.expirationCache)
    (hsame : ∀ k : StoreKey, k.owner ≠ some key → s.store.lookup k = s0.store.lookup k)
    (hcache : ∀ t key', (t, key') ∈ s.expirationCache ↔
      key' ≠ key ∧ (t, key') ∈ s0.expirationCache)
    (hsub : s.expirationCache.Sublist s0.expirationCache)
    (hevents : ∀ t, .expirationEvent t key ∉ s.store) (hlt : now < deadline) {bytes : Bytes}
    {d : KeyDescriptor} (hd : KeyDescriptor.ofBytes bytes = .ok d) (ht : d.keyType = .kLease)
    (he : d.endIndex = deadline) :
    Ledger now (s.granted key value deadline bytes).store
      (s.granted key value deadline bytes).expirationCache := by
  have hg : Granted key value deadline s0 (s.granted key value deadline bytes) :=
    granted_of_no_deadline hsame hcache
  have hdesc : (s.granted key value deadline bytes).store.lookup (.descriptor key) = some bytes :=
    AList.lookup_insert _
  have honce : (s.expirationCache.map Prod.snd).Nodup := h.once.sublist (hsub.map Prod.snd)
  refine h.update key (some deadline) hg.others hg.cache
    (once_placed honce fun t hm => ((hcache t key).mp hm).1 rfl)
    (sorted_placed (h.sorted.sublist hsub)) ?_ ?_ ?_ ?_ ?_
  · intro t
    constructor
    · intro hm
      by_contra hne
      have hk : StoreKey.expirationEvent t key ≠ .expirationEvent deadline key := by
        intro hc
        cases hc
        exact hne rfl
      rw [mem_congr (lookup_granted hk nofun nofun)] at hm
      exact hevents t hm
    · intro ht'
      cases ht'
      unfold StagingArea.granted StagingArea.putIn
      dsimp only
      rw [AList.mem_insert, AList.mem_insert, AList.mem_insert]
      exact .inr (.inr (.inl rfl))
  · intro t
    constructor
    · rintro ⟨bytes', d', hl, hd', -, hend⟩
      rw [hdesc] at hl
      cases hl
      rw [hd] at hd'
      cases hd'
      rw [← he, hend]
    · intro ht'
      cases ht'
      exact ⟨bytes, d, hdesc, hd, ht, he⟩
  · constructor
    · intro _
      exact ⟨deadline, rfl⟩
    · intro _
      rw [← AList.lookup_isSome, hg.holder]
      rfl
  · intro bytes' hl
    rw [hdesc] at hl
    cases hl
    exact ⟨d, hd⟩
  · intro t ht'
    cases ht'
    exact hlt

/-- The last steps of an acquisition. -/
theorem yields_grant (op : WriteOperation) (hv : op.isValid = true) (hk : op.redisKey = key)
    (ht : op.keyinfo.keyType = .kLease) (hn : ∀ t, (t, key) ∉ s.expirationCache)
    (hne : value ≠ []) {clock : UInt64} (hd : op.keyinfo.startIndex = clock)
    (he : op.keyinfo.endIndex = deadline)
    (hfits : clock < deadline ∨ deadline < clock ∧ fault (.assertion "startIndex <= endIndex"))
    {α : Type} {result : α} {post : α → StagingArea → Prop}
    (hpost : clock < deadline → ∀ bytes d, KeyDescriptor.ofBytes bytes = .ok d →
      d.keyType = .kLease → d.endIndex = deadline →
      post result (s.granted key value deadline bytes)) :
    Yields (do
      cacheInsert deadline key
      put (.expirationEvent deadline key) (ascii "1")
      op.write value
      op.finalize value.length true
      return result) s post fault := by
  have hlen : (value.length : Int) ≠ 0 := by
    intro h0
    exact hne (List.length_eq_zero_iff.mp (by omega))
  have hkey : op.valueKey = .ok (.lease key) := by
    unfold WriteOperation.valueKey
    rw [ht, hk]
    rfl
  rw [yields_bind, yields_cacheInsert hn, yields_bind, yields_put, yields_bind]
  unfold WriteOperation.write
  rw [WriteOperation.assertWritable_valid hv, pure_bind, hkey, throwing_ok, pure_bind, yields_put,
    yields_bind]
  rcases hfits with hlt | ⟨hlt, hf⟩
  · have hle : op.keyinfo.startIndex ≤ op.keyinfo.endIndex := by
      rw [hd, he]
      exact UInt64.le_of_lt hlt
    have hs : ∃ bytes, KeyDescriptor.serialize { op.keyinfo with sz := value.length } =
        .ok bytes := by
      unfold KeyDescriptor.serialize
      dsimp only
      rw [ht]
      dsimp only [KeyDescriptor.layout]
      rw [decide_eq_true hle]
      exact ⟨_, rfl⟩
    obtain ⟨bytes, hb⟩ := hs
    obtain ⟨d, hd', ht', -, hi, -⟩ := ofBytes_serialize_wrapped hb
    have hi' := (hi (by dsimp only; rw [ht]; rfl)).2
    rw [yields_finalize_written hv (by omega) (fun h0 => absurd h0 hlen) (.inr rfl) hb, yields_pure,
      hk]
    exact hpost hlt bytes d hd' (ht'.trans ht) (hi'.trans he)
  · have hs : KeyDescriptor.serialize { op.keyinfo with sz := value.length } =
        .error (.assertion "startIndex <= endIndex") := by
      unfold KeyDescriptor.serialize
      dsimp only
      rw [ht]
      dsimp only [KeyDescriptor.layout]
      rw [hd, he, decide_eq_false (UInt64.not_le.mpr hlt)]
      rfl
    unfold WriteOperation.finalize
    rw [WriteOperation.assertWritable_valid hv, pure_bind, if_neg (by omega),
      if_neg (fun h => hlen h.1), if_pos (.inr rfl), hs]
    exact hf

/-- What a request for a lease comes to, in a staging area whose clock has moved. -/
def Acquisition (key value : Bytes) (deadline : UInt64) (s : StagingArea)
    (result : LeaseAcquisitionStatus × Bytes × UInt64) (s' : StagingArea) : Prop :=
  match result with
  | (.kKeyTypeMismatch, _, _) =>
    s' = s ∧ (∀ t, (t, key) ∉ s.expirationCache) ∧ s.store.lookup (.descriptor key) ≠ none
  | (.kFailedDueToOtherOwner, holder, t) => s' = s ∧ (t, key) ∈ s.expirationCache ∧
      s.store.lookup (.lease key) = some holder ∧ holder ≠ value
  | (.kAcquired, holder, t) => holder = value ∧ t = deadline ∧
      s.store.lookup (.descriptor key) = none ∧ Granted key value deadline s s'
  | (.kRenewed, holder, t) => holder = value ∧ t = deadline ∧
      (∃ old, (old, key) ∈ s.expirationCache) ∧ s.store.lookup (.lease key) = some value ∧
      Granted key value deadline s s'

theorem yields_lease_acquire {clockUpdate duration : UInt64}
    (h : Ledger now s.store s.expirationCache) (hne : value ≠ []) (hz : duration ≠ 0)
    (hover : ¬ later now clockUpdate < later now clockUpdate + duration →
      fault (.assertion "startIndex <= endIndex")) :
    Yields (lease_acquire key value clockUpdate duration) s (fun result s' =>
      Ledger (later now clockUpdate) s'.store s'.expirationCache ∧
      ∃ s1, Ledger (later now clockUpdate) s1.store s1.expirationCache ∧
        Expired (later now clockUpdate) s s1 ∧
        Acquisition key value (later now clockUpdate + duration) s1 result s') fault := by
  have hempty : (!value.isEmpty) = true := by
    cases value with
    | nil => exact absurd rfl hne
    | cons c value => rfl
  unfold lease_acquire
  rw [hempty, assertThat_true, pure_bind, yields_bind]
  refine (yields_maybeAdvanceClock clockUpdate h).mono fun clock s1 hs => ?_
  obtain ⟨rfl, h1, hexp⟩ := hs
  generalize later now clockUpdate = clock at h1 hexp hover ⊢
  have hfits : clock < clock + duration ∨
      clock + duration < clock ∧ fault (.assertion "startIndex <= endIndex") := by
    by_cases hlt : clock < clock + duration
    · exact .inl hlt
    · refine .inr ⟨?_, hover hlt⟩
      have hd : duration.toNat ≠ 0 := fun h0 => hz (UInt64.toNat_inj.mp h0)
      have h2 := duration.toNat_lt
      rw [UInt64.lt_iff_toNat_lt, UInt64.toNat_add] at hlt ⊢
      omega
  rcases hl : s1.store.lookup (.descriptor key) with _ | bytes
  · -- the key is free
    have hn : ∀ t, (t, key) ∉ s1.expirationCache := by
      intro t hm
      obtain ⟨bytes, d, hb, -⟩ := (h1.leases t key).mpr hm
      rw [hl] at hb
      cases hb
    have hnone : s1.store.lookup (.lease key) = none := by
      rw [AList.lookup_eq_none, h1.holders]
      rintro ⟨t, hm⟩
      exact hn t hm
    have hcache : ∀ t key', (t, key') ∈ s1.expirationCache ↔
        key' ≠ key ∧ (t, key') ∈ s1.expirationCache := by
      intro t key'
      constructor
      · intro hm
        refine ⟨fun hk => hn t ?_, hm⟩
        rw [← hk]
        exact hm
      · intro hm
        exact hm.2
    rw [yields_withOperation_fresh hl, yields_bind, yields_lookup, hnone]
    simp only [WriteOperation.fresh, Option.isSome_none, Bool.false_eq_true, false_and, if_false,
      reduceCtorEq]
    let op : WriteOperation := {
      redisKey := key
      keyinfo := { keyType := .kLease, startIndex := clock, endIndex := clock + duration }
      redisKeyExists := false
      isValid := true }
    refine yields_grant op rfl rfl rfl hn hne rfl rfl hfits fun hlt bytes d hd ht he => ?_
    refine ⟨h1.granted (fun _ _ => rfl) hcache (List.Sublist.refl _) ?_ hlt hd ht he, s1, h1, hexp,
      rfl, rfl, hl, granted_of_no_deadline (fun _ _ => rfl) hcache⟩
    intro t hm
    exact hn t ((h1.events t key).mp hm)
  · obtain ⟨d, hd⟩ := h1.valid key bytes hl
    by_cases ht : d.keyType = .kLease
    · -- the key is a lease
      have hm : (d.endIndex, key) ∈ s1.expirationCache :=
        (h1.leases _ _).mp ⟨bytes, d, hl, hd, ht, rfl⟩
      obtain ⟨holder, hh⟩ : ∃ holder, s1.store.lookup (.lease key) = some holder := by
        rw [← Option.isSome_iff_exists, AList.lookup_isSome, h1.holders]
        exact ⟨_, hm⟩
      rw [yields_withOperation_known hl hd ht nofun, yields_bind, yields_lookup, hh]
      dsimp only
      by_cases hown : holder = value
      · subst hown
        have hcache := fun t key' => mem_erase_of_once h1.once hm t key'
        have hsame : ∀ k : StoreKey, k.owner ≠ some key →
            (s1.lapsed d.endIndex key).store.lookup k = s1.store.lookup k := by
          intro k hk
          refine AList.lookup_erase_ne ?_
          rintro rfl
          exact hk rfl
        have hevent : StoreKey.expirationEvent d.endIndex key ∈ s1.store := (h1.events _ _).mpr hm
        rw [if_neg (by simp), if_pos rfl, yields_bind, yields_cacheRemove hm, yields_bind,
          yields_mustExist (by exact hevent), yields_bind, yields_del]
        let op : WriteOperation := {
          redisKey := key
          keyinfo := { d with startIndex := clock, endIndex := clock + duration }
          redisKeyExists := true
          isValid := true }
        refine yields_grant (s := s1.lapsed d.endIndex key) op rfl rfl ht
          (fun t ht' => ((hcache t key).mp ht').1 rfl) hne rfl rfl hfits
          fun hlt bytes' d' hd' ht' he' => ?_
        refine ⟨h1.granted hsame hcache List.erase_sublist ?_ hlt hd' ht' he', s1, h1, hexp, rfl,
          rfl, ⟨_, hm⟩, hh, granted_of_no_deadline hsame hcache⟩
        intro t hm'
        obtain ⟨hne', hin⟩ := AList.mem_erase.mp hm'
        rw [h1.events] at hin
        exact hne' (by rw [h1.unique hin hm])
      · rw [if_pos ⟨rfl, fun he => hown (Option.some.inj he)⟩, yields_pure]
        exact ⟨h1, s1, h1, hexp, rfl, hm, hh, hown⟩
    · -- the key has another type
      unfold withOperation WriteOperation.start getKeyDescriptor
      rw [yields_bind, yields_bind, yields_bind, yields_lookup, hl]
      dsimp only
      rw [hd, throwing_ok, yields_pure, ofBytes_not_empty hd, if_neg nofun, yields_pure,
        if_neg (by simp [ht]), yields_pure]
      refine ⟨h1, s1, h1, hexp, rfl, ?_, by rw [hl]; nofun⟩
      intro t hm
      obtain ⟨bytes', d', hb, hd', ht', -⟩ := (h1.leases t key).mpr hm
      rw [hl] at hb
      cases hb
      rw [hd] at hd'
      cases hd'
      exact ht ht'

/-- What a release comes to, in a staging area whose clock has moved. -/
def Release (key : Bytes) (s : StagingArea) (status : Status) (s' : StagingArea) : Prop :=
  (∃ t, (t, key) ∈ s.expirationCache ∧ status = .OK ∧ s' = s.released t key) ∨
  (∀ t, (t, key) ∉ s.expirationCache) ∧
    (s.store.lookup (.descriptor key) = none ∧ status = .NotFound ∧ s' = s.delIn (.descriptor key) ∨
      s.store.lookup (.descriptor key) ≠ none ∧ status = wrongType ∧ s' = s)

theorem Release.ledger {status : Status} {s' : StagingArea} (hr : Release key s status s')
    (h : Ledger now s.store s.expirationCache) : Ledger now s'.store s'.expirationCache := by
  rcases hr with ⟨t, hm, -, rfl⟩ | ⟨-, ⟨hn, -, rfl⟩ | ⟨-, -, rfl⟩⟩
  · exact h.released hm
  · exact h.forget hn
  · exact h

theorem yields_release (h : Ledger now s.store s.expirationCache) :
    Yields (leaseRelease key) s (fun status s' => Release key s status s') fault := by
  by_cases hm : ∃ t, (t, key) ∈ s.expirationCache
  · obtain ⟨t, hm⟩ := hm
    rw [yields_leaseRelease h hm]
    exact .inl ⟨t, hm, rfl, rfl⟩
  · have hn : ∀ t, (t, key) ∉ s.expirationCache := fun t ht => hm ⟨t, ht⟩
    exact yields_leaseRelease_free h hn (fun hl => .inr ⟨hn, .inl ⟨hl, rfl, rfl⟩⟩)
      fun hl => .inr ⟨hn, .inr ⟨hl, rfl, rfl⟩⟩

theorem yields_lease_release (clockUpdate : UInt64) (h : Ledger now s.store s.expirationCache) :
    Yields (lease_release key clockUpdate) s (fun status s' =>
      ∃ s1, Ledger (later now clockUpdate) s1.store s1.expirationCache ∧
        Expired (later now clockUpdate) s s1 ∧ Release key s1 status s') fault := by
  unfold lease_release
  dsimp only
  split
  · rw [yields_bind]
    refine (yields_maybeAdvanceClock clockUpdate h).mono fun clock s1 hs => ?_
    exact (yields_release hs.2.1).mono fun status s' hr => ⟨s1, hs.2.1, hs.2.2, hr⟩
  · rename_i hz
    have hlater : later now clockUpdate = now := by
      unfold later
      rw [not_not.mp hz, if_neg (UInt64.not_lt.mpr (UInt64.zero_le))]
    rw [hlater]
    exact (yields_release h).mono fun status s' hr => ⟨s, h, Expired.of_ahead h.ahead, hr⟩

/-- What a lease is found to be, in a staging area whose clock has moved. -/
def Answer (key : Bytes) (s : StagingArea) (result : Status × Bytes × UInt64) : Prop :=
  (∃ t holder, (t, key) ∈ s.expirationCache ∧ s.store.lookup (.lease key) = some holder ∧
    result = (.OK, holder, t)) ∨
  (∀ t, (t, key) ∉ s.expirationCache) ∧
    (s.store.lookup (.descriptor key) = none ∧ result = (.NotFound, [], 0) ∨
      s.store.lookup (.descriptor key) ≠ none ∧ result = (wrongType, [], 0))

theorem yields_lease_get (clockUpdate : UInt64) (h : Ledger now s.store s.expirationCache) :
    Yields (lease_get key clockUpdate) s (fun result s' =>
      Ledger (later now clockUpdate) s'.store s'.expirationCache ∧
        Expired (later now clockUpdate) s s' ∧ Answer key s' result) fault := by
  unfold lease_get
  rw [yields_bind]
  refine (yields_maybeAdvanceClock clockUpdate h).mono fun clock s1 hs => ?_
  obtain ⟨-, h1, hexp⟩ := hs
  unfold getKeyDescriptor
  rw [yields_bind, yields_bind, yields_lookup]
  rcases hl : s1.store.lookup (.descriptor key) with _ | bytes <;> rw [hl] <;> dsimp only
  · refine ⟨h1, hexp, .inr ⟨?_, .inl ⟨hl, rfl⟩⟩⟩
    intro t hm
    obtain ⟨bytes, d, hb, -⟩ := (h1.leases t key).mpr hm
    rw [hl] at hb
    cases hb
  · obtain ⟨d, hd⟩ := h1.valid key bytes hl
    rw [hd, throwing_ok, yields_pure, ofBytes_not_empty hd, if_neg nofun]
    split
    · rename_i ht
      rw [yields_pure]
      refine ⟨h1, hexp, .inr ⟨?_, .inr ⟨by rw [hl]; nofun, rfl⟩⟩⟩
      intro t hm
      obtain ⟨bytes', d', hb, hd', ht', -⟩ := (h1.leases t key).mpr hm
      rw [hl] at hb
      cases hb
      rw [hd] at hd'
      cases hd'
      exact ht ht'
    · rename_i ht
      have hm : (d.endIndex, key) ∈ s1.expirationCache :=
        (h1.leases _ _).mp ⟨bytes, d, hl, hd, not_not.mp ht, rfl⟩
      obtain ⟨holder, hh⟩ : ∃ holder, s1.store.lookup (.lease key) = some holder := by
        rw [← Option.isSome_iff_exists, AList.lookup_isSome, h1.holders]
        exact ⟨_, hm⟩
      rw [yields_bind, yields_lookup, hh]
      exact ⟨h1, hexp, .inl ⟨_, holder, hm, hh, rfl⟩⟩

end

/-! ## All other commands -/

/-- The leases are what they were. -/
structure Settled (now : UInt64) (s0 s : StagingArea) : Prop where
  ledger : Ledger now s.store s.expirationCache
  cache : s.expirationCache = s0.expirationCache
  holders : ∀ key, s.store.lookup (.lease key) = s0.store.lookup (.lease key)

section

variable {now : UInt64} {s0 s s' : StagingArea} {key : Bytes}

theorem Settled.change (hs : Settled now s0 s) (hc : s'.expirationCache = s.expirationCache)
    (hsame : ∀ k : StoreKey, k.dataType = some .kLease → s'.store.lookup k = s.store.lookup k)
    (hclock : s'.store.lookup .clock = s.store.lookup .clock)
    (hleased : ∀ deadline key', Leased s'.store key' deadline ↔ Leased s.store key' deadline)
    (hvalid : ∀ key' bytes, s'.store.lookup (.descriptor key') = some bytes →
      ∃ d, KeyDescriptor.ofBytes bytes = .ok d) : Settled now s0 s' := by
  refine ⟨?_, hc.trans hs.cache, fun key' => (hsame (.lease key') rfl).trans (hs.holders key')⟩
  rw [hc]
  exact hs.ledger.transfer hsame hleased hvalid (hclock.trans hs.ledger.clock) hs.ledger.ahead

/-- A change to no record of a lease. -/
theorem Settled.beside {k : StoreKey} (hs : Settled now s0 s)
    (hc : s'.expirationCache = s.expirationCache)
    (hsame : ∀ k', k' ≠ k → s'.store.lookup k' = s.store.lookup k')
    (hk : k.dataType ≠ some .kLease) (hclock : k ≠ .clock) (hdesc : ∀ key', k ≠ .descriptor key') :
    Settled now s0 s' := by
  have hd : ∀ key', s'.store.lookup (.descriptor key') = s.store.lookup (.descriptor key') :=
    fun key' => hsame _ (hdesc key').symm
  refine hs.change hc ?_ (hsame _ hclock.symm) (fun _ key' => Leased.congr (hd key')) ?_
  · intro k' hk'
    apply hsame
    rintro rfl
    exact hk hk'
  · intro key' bytes hb
    rw [hd] at hb
    exact hs.ledger.valid key' bytes hb

/-- A change to the descriptor of a key that is no lease, before and after. -/
theorem Settled.redescribe (hs : Settled now s0 s) (hc : s'.expirationCache = s.expirationCache)
    (hsame : ∀ k', k' ≠ .descriptor key → s'.store.lookup k' = s.store.lookup k')
    (hbefore : ∀ t, (t, key) ∉ s.expirationCache)
    (hafter : ∀ bytes, s'.store.lookup (.descriptor key) = some bytes →
      ∃ d, KeyDescriptor.ofBytes bytes = .ok d ∧ d.keyType ≠ .kLease) : Settled now s0 s' := by
  have hd : ∀ key' ≠ key, s'.store.lookup (.descriptor key') = s.store.lookup (.descriptor key') :=
    fun key' hne => hsame _ fun he => hne (StoreKey.descriptor.inj he)
  refine hs.change hc ?_ (hsame _ (by nofun)) ?_ ?_
  · intro k' hk'
    apply hsame
    rintro rfl
    cases hk'
  · intro deadline key'
    by_cases hk : key' = key
    · subst hk
      constructor
      · rintro ⟨bytes, d, hl, hd', ht, -⟩
        obtain ⟨d', hd2, ht2⟩ := hafter bytes hl
        rw [hd'] at hd2
        cases hd2
        exact absurd ht ht2
      · intro hl
        exact absurd ((hs.ledger.leases _ _).mp hl) (hbefore deadline)
    · exact Leased.congr (hd key' hk)
  · intro key' bytes hb
    by_cases hk : key' = key
    · subst hk
      obtain ⟨d, hd', -⟩ := hafter bytes hb
      exact ⟨d, hd'⟩
    · rw [hd key' hk] at hb
      exact hs.ledger.valid key' bytes hb

theorem tolerates_settled {type : KeyType} (ht : type ≠ .kLease)
    (hn : ∀ t, (t, key) ∉ s0.expirationCache) : Tolerates (Settled now s0) key type := by
  have hlease : ∀ {k : StoreKey}, k.dataType = some type → k.dataType ≠ some .kLease := by
    intro k hk he
    rw [hk] at he
    exact ht (Option.some.inj he)
  have hclock : ∀ {k : StoreKey}, k.dataType = some type → k ≠ .clock := by
    rintro k hk rfl
    cases hk
  have hdesc : ∀ {k : StoreKey}, k.dataType = some type → ∀ key', k ≠ .descriptor key' := by
    rintro k hk key' rfl
    cases hk
  refine ⟨?_, ?_, ?_, ?_, ?_⟩
  · intro s k value _ hk hs
    exact hs.beside rfl (fun k' hne => AList.lookup_insert_ne hne) (hlease hk) (hclock hk) (hdesc hk)
  · intro s k _ hk hs
    exact hs.beside rfl (fun k' hne => AList.lookup_erase_ne hne) (hlease hk) (hclock hk) (hdesc hk)
  · intro s d bytes hd hb hs
    refine hs.redescribe rfl (fun k' hne => AList.lookup_insert_ne hne) ?_ ?_
    · rw [hs.cache]
      exact hn
    · intro bytes' hl
      obtain ⟨d', hd', ht', -⟩ := ofBytes_serialize_wrapped hb
      have he : (AList.insert (.descriptor key) bytes s.store).lookup (.descriptor key) =
          some bytes := AList.lookup_insert _
      rw [show bytes' = bytes from Option.some.inj (hl.symm.trans he)]
      refine ⟨d', hd', ?_⟩
      rw [ht', hd]
      exact ht
  · intro s hs
    refine hs.redescribe rfl (fun k' hne => AList.lookup_erase_ne hne) ?_ ?_
    · rw [hs.cache]
      exact hn
    · intro bytes hl
      have he : (s.store.erase (.descriptor key)).lookup (.descriptor key) = none :=
        AList.lookup_erase _ _
      exact absurd (hl.symm.trans he) nofun
  · intro s revision hs
    exact ⟨hs.ledger, hs.cache, hs.holders⟩

/-- Operations on other types do not touch leases. -/
theorem gated_settled {type : KeyType} (ht : type ≠ .kLease) (key : Bytes) :
    Gated (Settled now s0) key type := by
  intro s hs hfit
  apply tolerates_settled ht
  intro t hm
  rw [← hs.cache] at hm
  obtain ⟨bytes, d, hl, hd, htype, -⟩ := (hs.ledger.leases t key).mpr hm
  rw [← hfit bytes d hl hd] at ht
  exact ht htype

theorem settled_refl (h : Ledger now s.store s.expirationCache) : Settled now s s :=
  ⟨h, rfl, fun _ => rfl⟩

theorem yields_settled (doubles : Doubles) {request : RedisRequest}
    (hl : mayEndLeases request = false) (h : Ledger now s.store s.expirationCache) :
    Yields (dispatchCommand doubles request) s (fun _ s' => Settled now s s') Ordinary := by
  refine leaves_dispatchCommand doubles hl (fun key _ type ht => gated_settled ht key) ?_ s
    (settled_refl h)
  intro s' key value hs
  exact hs.beside rfl (fun k' hne => AList.lookup_insert_ne hne) nofun nofun nofun

end

/-! ## Commands that end leases -/

/-- The lease on a key is what it was. -/
def SameLease (key : Bytes) (s s' : StagingArea) : Prop :=
  (∀ t, (t, key) ∈ s'.expirationCache ↔ (t, key) ∈ s.expirationCache) ∧
    s'.store.lookup (.lease key) = s.store.lookup (.lease key)

section

variable {now : UInt64} {s s' : StagingArea} {key : Bytes} {fault : Fault → Prop}

theorem SameLease.trans {s'' : StagingArea} (h : SameLease key s s') (h' : SameLease key s' s'') :
    SameLease key s s'' :=
  ⟨fun t => (h'.1 t).trans (h.1 t), h'.2.trans h.2⟩

theorem Settled.sameLease (h : Settled now s s') (key : Bytes) : SameLease key s s' :=
  ⟨fun t => by rw [h.cache], h.holders key⟩

theorem sameLease_released (h : Ledger now s.store s.expirationCache) {deadline : UInt64}
    (hm : (deadline, key) ∈ s.expirationCache) {key' : Bytes} (hne : key' ≠ key) :
    SameLease key' s (s.released deadline key) := by
  refine ⟨fun t => ?_, lookup_released_of_owner fun ho => hne (Option.some.inj ho)⟩
  have hmem := mem_erase_of_once h.once hm t key'
  exact hmem.trans (and_iff_right hne)

theorem sameLease_forget (key' : Bytes) : SameLease key' s (s.delIn (.descriptor key)) :=
  ⟨fun _ => Iff.rfl, AList.lookup_erase_ne (by nofun)⟩

theorem Release.sameLease {status : Status} (hr : Release key s status s')
    (h : Ledger now s.store s.expirationCache) {key' : Bytes} (hne : key' ≠ key) :
    SameLease key' s s' := by
  rcases hr with ⟨t, hm, -, rfl⟩ | ⟨-, ⟨-, -, rfl⟩ | ⟨-, -, rfl⟩⟩
  · exact sameLease_released h hm hne
  · exact sameLease_forget key'
  · exact ⟨fun _ => Iff.rfl, rfl⟩

theorem Granted.sameLease {value : Bytes} {deadline : UInt64}
    (hg : Granted key value deadline s s') {key' : Bytes} (hne : key' ≠ key) :
    SameLease key' s s' := by
  refine ⟨fun t => ?_, hg.others _ fun ho => hne (Option.some.inj ho)⟩
  rw [hg.cache, if_neg hne]

theorem Release.old {status : Status} (hr : Release key s status s') {e : UInt64 × Bytes}
    (hm : e ∈ s'.expirationCache) : e ∈ s.expirationCache := by
  rcases hr with ⟨t, -, -, rfl⟩ | ⟨-, ⟨-, -, rfl⟩ | ⟨-, -, rfl⟩⟩
  · exact List.mem_of_mem_erase hm
  · exact hm
  · exact hm

theorem Expired.old {newValue : UInt64} (hexp : Expired newValue s s') {e : UInt64 × Bytes}
    (hm : e ∈ s'.expirationCache) : e ∈ s.expirationCache := by
  rw [hexp.cache] at hm
  exact (List.mem_filter.mp hm).1

theorem yields_delKeys (keys : List Bytes) {s : StagingArea}
    (h : Ledger now s.store s.expirationCache) :
    Yields (delKeys keys) s (fun _ s' => Ledger now s'.store s'.expirationCache ∧
      (∀ key, key ∉ keys → SameLease key s s') ∧
      ∀ e ∈ s'.expirationCache, e ∈ s.expirationCache) Ordinary := by
  induction keys generalizing s with
  | nil => exact ⟨h, fun _ _ => ⟨fun _ => Iff.rfl, rfl⟩, fun _ hm => hm⟩
  | cons key rest ih =>
    -- what comes after this key, when only the lease on this key may have changed
    have hrest : ∀ s1, Ledger now s1.store s1.expirationCache →
        (∀ key' ≠ key, SameLease key' s s1) →
        (∀ e ∈ s1.expirationCache, e ∈ s.expirationCache) →
        Yields (delKeys rest) s1 (fun _ s' => Ledger now s'.store s'.expirationCache ∧
          (∀ key', key' ∉ key :: rest → SameLease key' s s') ∧
          ∀ e ∈ s'.expirationCache, e ∈ s.expirationCache) Ordinary := by
      intro s1 h1 hsame hsub
      refine (ih h1).mono fun _ s' hs => ⟨hs.1, fun key' hn => ?_, fun e hm => ?_⟩
      · rw [List.mem_cons, not_or] at hn
        exact (hsame key' hn.1).trans (hs.2.1 key' hn.2)
      · exact hsub e (hs.2.2 e hm)
    unfold delKeys getKeyDescriptor
    rw [yields_bind, yields_bind, yields_lookup]
    rcases hl : s.store.lookup (.descriptor key) with _ | bytes <;> rw [hl] <;> dsimp only
    · exact hrest s h (fun _ _ => ⟨fun _ => Iff.rfl, rfl⟩) fun _ hm => hm
    obtain ⟨d, hd⟩ := h.valid key bytes hl
    rw [hd, throwing_ok, yields_pure, ofBytes_not_empty hd, if_neg Bool.false_ne_true, yields_bind]
    by_cases ht : d.keyType = .kLease
    · have hm : (d.endIndex, key) ∈ s.expirationCache :=
        (h.leases _ _).mp ⟨bytes, d, hl, hd, ht, rfl⟩
      unfold removeContents
      rw [ht]
      dsimp only
      rw [yields_bind, yields_leaseRelease h hm, show Status.ok .OK = true from rfl, if_neg (by simp),
        yields_pure, yields_bind, yields_del, yields_bind]
      refine hrest _ ((h.released hm).forget descriptor_released) (fun key' hne => ?_) fun e he => ?_
      · exact (sameLease_released h hm hne).trans (sameLease_forget key')
      · exact List.mem_of_mem_erase he
    · have hn : ∀ t, (t, key) ∉ s.expirationCache := by
        intro t hm
        obtain ⟨bytes', d', hb, hd', ht', -⟩ := (h.leases t key).mpr hm
        rw [hl] at hb
        cases hb
        rw [hd] at hd'
        cases hd'
        exact ht ht'
      have htol : Tolerates (Settled now s) key d.keyType := tolerates_settled ht hn
      refine (leaves_removeContents htol ht s (settled_refl h)).mono fun _ s1 hs1 => ?_
      rw [yields_bind, yields_del, yields_bind]
      have hs2 := htol.forget s1 hs1
      refine hrest _ hs2.ledger (fun key' _ => hs2.sameLease key') fun e he => ?_
      rw [hs2.cache] at he
      exact he

/-- Nothing is left but the clock. -/
theorem yields_flushall (h : Ledger now s.store s.expirationCache) :
    Yields flushall s (fun _ s' => Ledger now s'.store s'.expirationCache ∧
      s'.expirationCache = []) fault := by
  unfold flushall
  rw [yields_bind]
  refine yields_removeAll fun s1 hs1 _ => ?_
  rw [yields_bind, yields_modify, yields_pure]
  have hgone : ∀ (k : StoreKey) (key : Bytes), k.owner = some key → s1.store.lookup k = none := by
    intro k key ho
    rw [hs1 k, if_pos]
    cases k <;> first | rfl | cases ho
  refine ⟨⟨?_, ?_, ?_, List.nodup_nil, List.Pairwise.nil, ?_, ?_, nofun⟩, rfl⟩
  · intro deadline key
    constructor
    · intro hm
      exact absurd hm (AList.lookup_eq_none.mp (hgone _ key rfl))
    · nofun
  · intro deadline key
    constructor
    · rintro ⟨bytes, d, hl, -⟩
      rw [hgone _ key rfl] at hl
      cases hl
    · nofun
  · intro key
    constructor
    · intro hm
      exact absurd hm (AList.lookup_eq_none.mp (hgone _ key rfl))
    · rintro ⟨t, ht⟩
      cases ht
  · intro key bytes hl
    rw [hgone _ key rfl] at hl
    cases hl
  · show s1.store.lookup .clock = _
    rw [hs1 .clock]
    exact h.clock

/-- The lease stays while its deadline is ahead. -/
theorem Expired.sameLease {newValue t : UInt64} (hexp : Expired newValue s s')
    (h : Ledger now s.store s.expirationCache) (hm : (t, key) ∈ s.expirationCache)
    (hlt : newValue < t) : SameLease key s s' := by
  refine ⟨fun t' => ?_, ?_⟩
  · rw [hexp.cache, List.mem_filter]
    constructor
    · exact fun hc => hc.1
    · intro hc
      rw [h.unique hc hm]
      exact ⟨hm, decide_eq_true hlt⟩
  · apply hexp.others _ (by nofun)
    rintro ⟨t', key'⟩ he hle ho
    cases Option.some.inj ho
    rw [h.unique he hm] at hle
    exact UInt64.not_lt.mpr hle hlt

end

/-! ## Requests -/

/-- The time that a request carries. -/
def timestampOf (request : RedisRequest) : UInt64 :=
  match getCommand request, request.tail with
  | .TIMESTAMPED_LEASE_ACQUIRE, [_, _, _, timestamp] => binaryStringToUnsignedInt timestamp
  | .TIMESTAMPED_LEASE_GET, [_, timestamp] => binaryStringToUnsignedInt timestamp
  | .TIMESTAMPED_LEASE_RELEASE, [_, timestamp] => binaryStringToUnsignedInt timestamp
  | _, _ => 0

/-- An acquisition that names no holder. -/
def namesNobody (request : RedisRequest) : Bool :=
  match getCommand request, request.tail with
  | .TIMESTAMPED_LEASE_ACQUIRE, [_, value, _, _] => value.isEmpty
  | _, _ => false

/-- A request that ends or renews the lease that `value` has on a key, before its deadline. -/
def changesLease (request : RedisRequest) (key value : Bytes) : Bool :=
  match getCommand request, request.tail with
  | .FLUSHALL, _ => true
  | .DEL, keys => key ∈ keys
  | .TIMESTAMPED_LEASE_RELEASE, key' :: _ => key' = key
  | .TIMESTAMPED_LEASE_ACQUIRE, key' :: value' :: _ => key' = key ∧ value' = value
  | _, _ => false

/-- A request for the lease on a key. -/
def wantsLease (request : RedisRequest) (key : Bytes) : Bool :=
  match getCommand request, request.tail with
  | .TIMESTAMPED_LEASE_ACQUIRE, key' :: _ => key' = key
  | _, _ => false

/-- What a request does to the leases. -/
structure Handled (request : RedisRequest) (now : UInt64) (s : StagingArea) (now' : UInt64)
    (s' : StagingArea) : Prop where
  clock : now' = now ∨ now' = later now (timestampOf request)
  ledger : Ledger now' s'.store s'.expirationCache
  kept : ∀ key value t, (t, key) ∈ s.expirationCache →
    s.store.lookup (.lease key) = some value → now' < t →
    changesLease request key value = false → SameLease key s s'
  old : ∀ key t, wantsLease request key = false → (t, key) ∈ s'.expirationCache →
    (t, key) ∈ s.expirationCache

section

variable {now : UInt64} {s : StagingArea} {request : RedisRequest} {fault : Fault → Prop}

theorem handled_unchanged (h : Ledger now s.store s.expirationCache) :
    Handled request now s now s :=
  ⟨.inl rfl, h, fun _ _ _ _ _ _ _ => ⟨fun _ => Iff.rfl, rfl⟩, fun _ _ _ hm => hm⟩

theorem yields_assertThat {holds : Bool} {condition : String} {α : Type} {f : Unit → StagingM α}
    {post : α → StagingArea → Prop} (hc : fault (.assertion condition))
    (hf : holds = true → Yields (f ()) s post fault) :
    Yields (assertThat holds condition >>= f) s post fault := by
  cases holds with
  | true => exact hf rfl
  | false => exact hc

/-- What is acquired leaves the leases of others alone. -/
theorem Acquisition.sameLease {key value : Bytes} {deadline : UInt64}
    {result : LeaseAcquisitionStatus × Bytes × UInt64} {s' : StagingArea}
    (ha : Acquisition key value deadline s result s') {key' value' : Bytes}
    (hheld : s.store.lookup (.lease key') = some value')
    (hdesc : s.store.lookup (.descriptor key') ≠ none) (hne : ¬ (key = key' ∧ value = value')) :
    SameLease key' s s' := by
  have hsame : SameLease key' s s := ⟨fun _ => Iff.rfl, rfl⟩
  unfold Acquisition at ha
  split at ha
  · rw [ha.1]
    exact hsame
  · rw [ha.1]
    exact hsame
  · obtain ⟨-, -, hfree, hg⟩ := ha
    apply hg.sameLease
    rintro rfl
    exact hdesc hfree
  · obtain ⟨-, -, -, hown, hg⟩ := ha
    apply hg.sameLease
    rintro rfl
    rw [hown] at hheld
    exact hne ⟨rfl, Option.some.inj hheld⟩

theorem Acquisition.old {key value : Bytes} {deadline : UInt64}
    {result : LeaseAcquisitionStatus × Bytes × UInt64} {s' : StagingArea}
    (ha : Acquisition key value deadline s result s') {key' : Bytes} (hne : key' ≠ key)
    {t : UInt64} (hm : (t, key') ∈ s'.expirationCache) : (t, key') ∈ s.expirationCache := by
  unfold Acquisition at ha
  split at ha
  · rwa [ha.1] at hm
  · rwa [ha.1] at hm
  · exact ((ha.2.2.2.sameLease hne).1 t).mp hm
  · exact ((ha.2.2.2.2.sameLease hne).1 t).mp hm

theorem Ledger.descriptor_ne_none {store : Store} {cache : List (UInt64 × Bytes)} {t : UInt64}
    {key : Bytes} (h : Ledger now store cache) (hm : (t, key) ∈ cache) :
    store.lookup (.descriptor key) ≠ none := by
  obtain ⟨bytes, d, hl, -⟩ := (h.leases t key).mpr hm
  rw [hl]
  nofun

variable {key value : Bytes}

theorem yields_dispatchLeaseAcquire (durationStr timestampStr : Bytes)
    (h : Ledger now s.store s.expirationCache) (hf : ∀ e, Ordinary e → fault e)
    (hn : value ≠ [] ∨ fault (.assertion "!value.empty()"))
    (htime : timestampOf request = binaryStringToUnsignedInt timestampStr)
    (hchange : ∀ key' value', changesLease request key' value' = false →
      ¬ (key = key' ∧ value = value'))
    (hwants : ∀ key', wantsLease request key' = false → key ≠ key') :
    Yields (dispatchLeaseAcquire key value durationStr timestampStr) s
      (fun _ s' => ∃ now', Handled request now s now' s') fault := by
  unfold dispatchLeaseAcquire
  split
  · exact ⟨now, handled_unchanged h⟩
  split
  · exact ⟨now, handled_unchanged h⟩
  rename_i duration hparse hpos
  have hz : UInt64.ofNat duration.toNat ≠ 0 := by
    intro h0
    have hb := (parseInt64_bounds hparse).2
    have := congrArg UInt64.toNat h0
    rw [UInt64.toNat_ofNat'] at this
    have : duration.toNat % 2 ^ 64 = 0 := this
    omega
  refine yields_assertThat (hf _ (by decide)) fun _ => ?_
  dsimp only
  rw [yields_bind]
  by_cases hne : value = []
  · rcases hn with hn | hnobody
    · exact absurd hne hn
    · rw [hne]
      exact hnobody
  refine (yields_lease_acquire h hne hz fun _ => hf _ (by decide)).mono fun result s' hs => ?_
  obtain ⟨hl, s1, h1, hexp, ha⟩ := hs
  have hh : ∃ now', Handled request now s now' s' := by
    refine ⟨later now (binaryStringToUnsignedInt timestampStr), .inr (by rw [htime]), hl, ?_, ?_⟩
    · intro key' value' t hm hheld hlt hch
      have hsame := hexp.sameLease h hm hlt
      refine hsame.trans (ha.sameLease (hsame.2.trans hheld) ?_ (hchange key' value' hch))
      exact h1.descriptor_ne_none ((hsame.1 t).mpr hm)
    · intro key' t hw hm
      exact hexp.old (ha.old (hwants key' hw).symm hm)
  split <;> exact hh

theorem yields_dispatchLeaseGet (timestampStr : Bytes)
    (h : Ledger now s.store s.expirationCache) (hf : ∀ e, Ordinary e → fault e)
    (htime : timestampOf request = binaryStringToUnsignedInt timestampStr) :
    Yields (dispatchLeaseGet key timestampStr) s
      (fun _ s' => ∃ now', Handled request now s now' s') fault := by
  unfold dispatchLeaseGet
  refine yields_assertThat (hf _ (by decide)) fun _ => ?_
  dsimp only
  rw [yields_bind]
  refine (yields_lease_get _ h).mono fun result s' hs => ?_
  obtain ⟨hl, hexp, -⟩ := hs
  have hh : ∃ now', Handled request now s now' s' := by
    refine ⟨later now (binaryStringToUnsignedInt timestampStr), .inr (by rw [htime]), hl, ?_, ?_⟩
    · intro key' value' t hm _ hlt _
      exact hexp.sameLease h hm hlt
    · intro key' t _ hm
      exact hexp.old hm
  split
  · exact hh
  · exact yields_assertThat (hf _ (by decide)) fun _ => hh

theorem yields_dispatchLeaseRelease (timestampStr : Bytes)
    (h : Ledger now s.store s.expirationCache) (hf : ∀ e, Ordinary e → fault e)
    (htime : timestampOf request = binaryStringToUnsignedInt timestampStr)
    (hchange : ∀ key' value', changesLease request key' value' = false → key' ≠ key) :
    Yields (dispatchLeaseRelease key timestampStr) s
      (fun _ s' => ∃ now', Handled request now s now' s') fault := by
  unfold dispatchLeaseRelease
  refine yields_assertThat (hf _ (by decide)) fun _ => ?_
  rw [yields_bind]
  refine (yields_lease_release _ h).mono fun status s' hs => ?_
  obtain ⟨s1, h1, hexp, hr⟩ := hs
  have hh : ∃ now', Handled request now s now' s' := by
    refine ⟨later now (binaryStringToUnsignedInt timestampStr), .inr (by rw [htime]),
      hr.ledger h1, ?_, ?_⟩
    · intro key' value' t hm _ hlt hch
      exact (hexp.sameLease h hm hlt).trans (hr.sameLease h1 (hchange key' value' hch))
    · intro key' t _ hm
      exact hexp.old (hr.old hm)
  split <;> exact hh

/-- Every command keeps the ledger, and the leases that it does not end. -/
theorem yields_handled (doubles : Doubles) (h : Ledger now s.store s.expirationCache)
    (hf : ∀ e, Ordinary e → fault e)
    (hn : namesNobody request = false ∨ fault (.assertion "!value.empty()")) :
    Yields (dispatchCommand doubles request) s (fun _ s' => ∃ now', Handled request now s now' s')
      fault := by
  have hsame : ∃ now', Handled request now s now' s := ⟨now, handled_unchanged h⟩
  by_cases hl : mayEndLeases request = false
  · have hs := yields_settled doubles hl h
    unfold Yields at hs ⊢
    split at hs
    · refine ⟨now, .inl rfl, hs.ledger, fun key _ _ _ _ _ _ => hs.sameLease key, ?_⟩
      intro key t _ hm
      exact ((hs.sameLease key).1 t).mp hm
    · exact hf _ hs
  unfold mayEndLeases at hl
  unfold dispatchCommand
  dsimp only
  split at hl
  · rename_i hc
    rw [hc]
    rcases request.tail with _ | ⟨part, parts⟩
    · refine yields_bind.mpr ((yields_flushall h).mono fun _ s' hs => ?_)
      refine ⟨now, .inl rfl, hs.1, fun key value t _ _ _ hch => ?_, fun key t _ hm => ?_⟩
      · simp [changesLease, hc] at hch
      · rw [hs.2] at hm
        cases hm
    · exact hsame
  · rename_i hc
    rw [hc]
    rcases ht : request.tail with _ | ⟨key, keys⟩
    · exact hsame
    · refine yields_bind.mpr ?_
      have hd := yields_delKeys (key :: keys) h
      unfold Yields at hd ⊢
      split at hd
      · refine ⟨now, .inl rfl, hd.1, fun key' value t _ _ _ hch => hd.2.1 key' ?_, ?_⟩
        · simpa [changesLease, hc, ht] using hch
        · intro key' t _ hm
          exact hd.2.2 _ hm
      · exact hf _ hd
  · rename_i hc
    rw [hc]
    rcases ht : request.tail with
      _ | ⟨key, _ | ⟨value, _ | ⟨duration, _ | ⟨timestamp, _ | ⟨part, parts⟩⟩⟩⟩⟩
    · exact hsame
    · exact hsame
    · exact hsame
    · exact hsame
    · have hnobody : value ≠ [] ∨ fault (.assertion "!value.empty()") := by
        refine hn.imp_left fun hn => ?_
        simpa [namesNobody, hc, ht] using hn
      refine yields_dispatchLeaseAcquire duration timestamp h hf hnobody ?_ ?_ ?_
      · simp [timestampOf, hc, ht]
      · intro key' value' hch
        simpa [changesLease, hc, ht] using hch
      · intro key' hw
        simpa [wantsLease, hc, ht] using hw
    · exact hsame
  · rename_i hc
    rw [hc]
    rcases ht : request.tail with _ | ⟨key, _ | ⟨timestamp, _ | ⟨part, parts⟩⟩⟩
    · exact hsame
    · exact hsame
    · refine yields_dispatchLeaseGet timestamp h hf ?_
      simp [timestampOf, hc, ht]
    · exact hsame
  · rename_i hc
    rw [hc]
    rcases ht : request.tail with _ | ⟨key, _ | ⟨timestamp, _ | ⟨part, parts⟩⟩⟩
    · exact hsame
    · exact hsame
    · refine yields_dispatchLeaseRelease timestamp h hf ?_ ?_
      · simp [timestampOf, hc, ht]
      · intro key' value' hch
        have hne : key ≠ key' := by simpa [changesLease, hc, ht] using hch
        exact hne.symm
    · exact hsame
  · exact absurd rfl hl

end

/-! ## The cache is loaded again -/

theorem mem_expirationEvents {store : Store} {deadline : UInt64} {key : Bytes} :
    (deadline, key) ∈ expirationEvents store ↔ .expirationEvent deadline key ∈ store := by
  unfold expirationEvents
  rw [List.mem_mergeSort, List.mem_filterMap, AList.mem_keys]
  constructor
  · rintro ⟨k, hk, he⟩
    unfold eventOf at he
    split at he
    · cases he
      exact hk
    · cases he
  · intro hk
    exact ⟨_, hk, rfl⟩

theorem nodup_expirationEvents (store : Store) : (expirationEvents store).Nodup := by
  unfold expirationEvents
  rw [(List.mergeSort_perm _ _).nodup_iff]
  refine List.Nodup.filterMap ?_ store.keys_nodup
  intro k k' e hk hk'
  unfold eventOf at hk hk'
  split at hk
  · split at hk'
    · cases hk
      cases hk'
      rfl
    · cases hk'
  · cases hk

section

variable {now : UInt64} {s : StagingArea} {fault : Fault → Prop}

theorem yields_cacheInsertAll (events : List (UInt64 × Bytes)) {s : StagingArea}
    (honce : (events.map Prod.snd ++ s.expirationCache.map Prod.snd).Nodup)
    (hsorted : s.expirationCache.Pairwise fun e e' => e.1 ≤ e'.1)
    {post : Unit → StagingArea → Prop}
    (hpost : ∀ cache, cache.Perm (events ++ s.expirationCache) →
      (cache.Pairwise fun e e' => e.1 ≤ e'.1) → post () { s with expirationCache := cache }) :
    Yields (cacheInsertAll events) s post fault := by
  induction events generalizing s with
  | nil => exact hpost s.expirationCache (List.Perm.refl _) hsorted
  | cons e rest ih =>
    obtain ⟨deadline, key⟩ := e
    rw [List.map_cons, List.cons_append, List.nodup_cons] at honce
    obtain ⟨hnew, honce⟩ := honce
    have hn : ∀ t, (t, key) ∉ s.expirationCache := by
      intro t hm
      exact hnew (List.mem_append_right _ (List.mem_map.mpr ⟨(t, key), hm, rfl⟩))
    unfold cacheInsertAll
    rw [yields_bind, yields_cacheInsert hn]
    refine ih ?_ (sorted_placed hsorted) fun cache hperm hs => hpost cache ?_ hs
    · have hp : (rest.map Prod.snd ++ (placed deadline key s.expirationCache).map Prod.snd).Perm
          (key :: (rest.map Prod.snd ++ s.expirationCache.map Prod.snd)) :=
        (List.Perm.append_left _ (placed_perm.map Prod.snd)).trans List.perm_middle
      rw [hp.nodup_iff, List.nodup_cons]
      exact ⟨hnew, honce⟩
    · refine hperm.trans ((List.Perm.append_left _ placed_perm).trans ?_)
      exact List.perm_middle

/-- A state machine that is opened again has the leases that it had. -/
theorem reopen_ledger {m : Machine} (h : Ledger now m.store m.expirationCache) :
    ∃ m', reopen m = .ok m' ∧ Ledger now m'.store m'.expirationCache ∧
      ∀ k ≠ .lastApplied, m'.store.lookup k = m.store.lookup k := by
  have hlen : (unsignedIntToBinaryString now).length = 8 := by
    unfold unsignedIntToBinaryString
    rw [List.length_reverse, length_toLittle]
  have honce : ((expirationEvents m.store).map Prod.snd).Nodup := by
    refine (List.nodup_map_iff_inj_on (nodup_expirationEvents m.store)).mpr ?_
    rintro ⟨t, key⟩ he ⟨t', key'⟩ he' rfl
    rw [mem_expirationEvents, h.events] at he he'
    rw [h.unique he he']
  let opening : StagingM Int := do
    ensureClockSanity
    loadExpirationCache
    retrieveLastApplied
  have hy : Yields opening { store := m.store, expirationCache := [] } (fun _ s =>
      Ledger now s.store s.expirationCache ∧
      ∀ k ≠ .lastApplied, s.store.lookup k = m.store.lookup k) fun _ => False := by
    have hclock : AList.lookup StoreKey.clock m.store = some (unsignedIntToBinaryString now) :=
      h.clock
    show Yields (do ensureClockSanity; loadExpirationCache; retrieveLastApplied) _ _ _
    unfold ensureClockSanity
    rw [yields_bind, yields_bind, yields_keyExists]
    dsimp only
    rw [hclock, if_neg (by simp), yields_bind, yields_lookup]
    dsimp only
    rw [hclock]
    dsimp only
    rw [hlen, if_neg (by simp), yields_pure, yields_bind]
    unfold loadExpirationCache
    rw [yields_bind, yields_get]
    refine yields_cacheInsertAll _ ?_ List.Pairwise.nil fun cache hperm hsorted => ?_
    · simpa using honce
    have hmem : ∀ e, e ∈ cache ↔ e ∈ m.expirationCache := by
      intro e
      rw [hperm.mem_iff, List.append_nil, mem_expirationEvents]
      exact h.events e.1 e.2
    have hl : Ledger now m.store cache := by
      refine ⟨?_, ?_, ?_, ?_, hsorted, h.valid, h.clock, ?_⟩
      · intro deadline key
        rw [hmem]
        exact h.events deadline key
      · intro deadline key
        rw [hmem]
        exact h.leases deadline key
      · intro key
        rw [h.holders]
        exact exists_congr fun t => (hmem (t, key)).symm
      · rw [(hperm.map Prod.snd).nodup_iff, List.append_nil]
        exact honce
      · intro e he
        exact h.ahead e ((hmem e).mp he)
    unfold retrieveLastApplied
    rw [yields_bind, yields_lookup]
    split
    · rw [yields_pure]
      exact ⟨hl, fun _ _ => rfl⟩
    · rw [yields_bind, yields_put, yields_pure]
      have hsame : ∀ k : StoreKey, k ≠ .lastApplied →
          (m.store.insert .lastApplied (bigInt 0)).lookup k = m.store.lookup k :=
        fun k hk => AList.lookup_insert_ne hk
      exact ⟨hl.unapplied hsame, hsame⟩
  obtain ⟨lastApplied, s, hrun, hl, hsame⟩ := hy.exists_ok
  refine ⟨{ store := s.store, expirationCache := s.expirationCache, lastApplied }, ?_, hl, hsame⟩
  unfold reopen
  rw [bind_of_ok (show opening.run _ = _ from hrun)]
  rfl

end

/-! ## Runs -/

/-- A request whose time, if it carries one, is below `2 ^ 63`, and that names a holder if it
wants a lease. -/
def Timely (request : RedisRequest) : Prop :=
  timestampOf request < 2 ^ 63 ∧ namesNobody request = false

def TimelyBatch (tx : Transaction) : Prop :=
  ∀ request ∈ tx.requests, ∀ inner, Within inner request → Timely inner

/-- The leases are in order, and the clock is far from its end. -/
def InOrder (s : StagingArea) : Prop :=
  ∃ now : UInt64, now < 2 ^ 63 ∧ Ledger now s.store s.expirationCache

section

variable (doubles : Doubles) (dispatchRead : StagingArea → RedisRequest → Except Fault Bytes)

/-- The state machines that batches lead to, from a new one. It may be closed and opened again
at any time. -/
inductive Leasing (allowed : Transaction → Prop) : Machine → Prop
  | fresh : Leasing allowed freshMachine
  | commit {m m' : Machine} {tx : Transaction} {index : Int} {reply : Bytes} :
    Leasing allowed m → allowed tx →
    dispatchTransaction doubles dispatchRead m tx index = .ok (reply, m') → Leasing allowed m'
  | reopen {m m' : Machine} : Leasing allowed m → reopen m = .ok m' → Leasing allowed m'

/-- The staging areas that the commands of a batch find. -/
inductive Staged (allowed : RedisRequest → Prop) (m : Machine) : StagingArea → Prop
  | start : Staged allowed m (stage m)
  | command {s s' : StagingArea} {request : RedisRequest} {reply : Bytes} :
    Staged allowed m s → allowed request →
    dispatchCommand doubles request s = .ok (reply, s') → Staged allowed m s'

theorem later_lt {now clockUpdate bound : UInt64} (h : now < bound) (h' : clockUpdate < bound) :
    later now clockUpdate < bound := by
  unfold later
  split
  · exact h'
  · exact h

theorem keeps_inOrder {request : RedisRequest} {fault : Fault → Prop}
    (hr : timestampOf request < 2 ^ 63) (hf : ∀ e, Ordinary e → fault e)
    (hn : namesNobody request = false ∨ fault (.assertion "!value.empty()")) :
    Keeps InOrder fault (dispatchCommand doubles request) := by
  rintro s ⟨now, hlt, h⟩
  refine (yields_handled doubles h hf hn).mono fun _ s' hs => ?_
  obtain ⟨now', hh⟩ := hs
  refine ⟨now', ?_, hh.ledger⟩
  rcases hh.clock with rfl | rfl
  · exact hlt
  · exact later_lt hlt hr

theorem freshMachine_inOrder : InOrder (stage freshMachine) := by
  have hnone : ∀ (k : StoreKey) (key : Bytes), k.owner = some key →
      freshMachine.store.lookup k = none := by
    intro k key ho
    show (AList.insert StoreKey.lastApplied _ (AList.insert StoreKey.clock _ ∅)).lookup k = none
    rw [AList.lookup_insert_ne, AList.lookup_insert_ne, AList.lookup_empty]
    · rintro rfl
      cases ho
    · rintro rfl
      cases ho
  have hmem : ∀ (k : StoreKey) (key : Bytes), k.owner = some key → k ∉ freshMachine.store :=
    fun k key ho => AList.lookup_eq_none.mp (hnone k key ho)
  refine ⟨0, by decide +kernel, ?_, ?_, ?_, List.nodup_nil, List.Pairwise.nil, ?_, ?_, nofun⟩
  · intro deadline key
    exact ⟨fun hm => absurd hm (hmem _ key rfl), nofun⟩
  · intro deadline key
    refine ⟨?_, nofun⟩
    rintro ⟨bytes, d, hl, -⟩
    exact absurd (hl.symm.trans (hnone _ key rfl)) nofun
  · intro key
    refine ⟨fun hm => absurd hm (hmem _ key rfl), ?_⟩
    rintro ⟨t, ht⟩
    cases ht
  · intro key bytes hl
    exact absurd (hl.symm.trans (hnone _ key rfl)) nofun
  · show (AList.insert StoreKey.lastApplied _ (AList.insert StoreKey.clock _ ∅)).lookup .clock = _
    rw [AList.lookup_insert_ne (by nofun), AList.lookup_insert]

theorem Leasing.inOrder {m : Machine} (h : Leasing doubles dispatchRead TimelyBatch m) :
    InOrder (stage m) := by
  induction h with
  | fresh => exact freshMachine_inOrder
  | commit _ ht hd ih =>
    refine dispatchTransaction_keeps doubles dispatchRead Timely ?_ ?_ ih ht hd
    · intro request hr _ _
      exact keeps_inOrder doubles hr.1 (fun _ _ => trivial) (.inl hr.2)
    · rintro s s' ⟨now, hlt, hl⟩ hcache hsame
      refine ⟨now, hlt, ?_⟩
      rw [hcache]
      exact hl.unapplied hsame
  | reopen _ hr ih =>
    obtain ⟨now, hlt, hl⟩ := ih
    obtain ⟨m', hm', hl', -⟩ := reopen_ledger hl
    rw [hm'] at hr
    cases hr
    exact ⟨now, hlt, hl'⟩

theorem Staged.inOrder {m : Machine} {s : StagingArea} (hm : InOrder (stage m))
    (h : Staged doubles Timely m s) : InOrder s := by
  induction h with
  | start => exact hm
  | command _ hr hd ih =>
    exact (keeps_inOrder doubles hr.1 (fun _ _ => trivial) (.inl hr.2) _ ih).of_ok hd

/-- As long as every request for a lease names its holder, the expiration cache, the
expiration events and the descriptors of leases agree, no deadline has passed, and nothing
that the bookkeeping checks is found wrong: what changes leases comes to an end. -/
theorem leases_are_booked_unless_nobody_is_named {m : Machine}
    (h : Leasing doubles dispatchRead TimelyBatch m) :
    (∃ now, Ledger now m.store m.expirationCache) ∧ (∃ m', reopen m = .ok m') ∧
    ∀ s, Staged doubles Timely m s → ∃ now, Ledger now s.store s.expirationCache ∧
      (∀ request fault, Timely request → dispatchCommand doubles request s = .error fault →
        fault ∉ leaseFaults) ∧
      (∀ key value (clockUpdate duration : UInt64), value ≠ [] → clockUpdate < 2 ^ 63 →
        0 < duration → duration < 2 ^ 63 →
        ∃ result, lease_acquire key value clockUpdate duration s = .ok result) ∧
      (∀ key clockUpdate, ∃ result, lease_release key clockUpdate s = .ok result) ∧
      (∀ key clockUpdate, ∃ result, lease_get key clockUpdate s = .ok result) ∧
      ∀ newValue, now ≤ newValue → ∃ s', advanceClock newValue s = .ok ((), s') ∧
        s'.expirationCache = s.expirationCache.filter fun e => newValue < e.1 := by
  have hm := h.inOrder doubles dispatchRead
  refine ⟨?_, ?_, ?_⟩
  · obtain ⟨now, -, hl⟩ := hm
    exact ⟨now, hl⟩
  · obtain ⟨now, -, hl⟩ := hm
    obtain ⟨m', hm', -⟩ := reopen_ledger hl
    exact ⟨m', hm'⟩
  intro s hs
  obtain ⟨now, hlt, hl⟩ := hs.inOrder doubles hm
  refine ⟨now, hl, ?_, ?_, ?_, ?_, ?_⟩
  · intro request fault hr he
    exact (yields_handled doubles hl (fun _ h => h) (.inl hr.2)).of_error he
  · intro key value clockUpdate duration hne hclock hpos hd
    have hz : duration ≠ 0 := by
      rintro rfl
      exact absurd hpos (UInt64.lt_irrefl 0)
    have hfits : later now clockUpdate < later now clockUpdate + duration := by
      have h1 : later now clockUpdate < 2 ^ 63 := later_lt hlt hclock
      rw [UInt64.lt_iff_toNat_lt] at h1 hd hpos ⊢
      have h2 : (2 ^ 63 : UInt64).toNat = 2 ^ 63 := by decide +kernel
      have h3 : (0 : UInt64).toNat = 0 := rfl
      rw [UInt64.toNat_add]
      omega
    have hy := @yields_lease_acquire now s key value (fun _ => False) _ _ hl hne hz
      fun hn => hn hfits
    obtain ⟨result, s', hrun, -⟩ := hy.exists_ok
    exact ⟨_, hrun⟩
  · intro key clockUpdate
    obtain ⟨result, s', hrun, -⟩ := (@yields_lease_release now s key _ clockUpdate hl).exists_ok
    exact ⟨_, hrun⟩
  · intro key clockUpdate
    obtain ⟨result, s', hrun, -⟩ := (@yields_lease_get now s key _ clockUpdate hl).exists_ok
    exact ⟨_, hrun⟩
  · intro newValue hle
    obtain ⟨_, s', hrun, -, hexp⟩ := (yields_advanceClock hl hle).exists_ok
    exact ⟨s', hrun, hexp.cache⟩

end

theorem a_lease_is_booked_when_it_is_acquired :
    ∃ m, Leasing wholeDoubles readsNothing TimelyBatch m ∧
      m.expirationCache = [(1010, ascii "k")] ∧
      (∃ now, Ledger now m.store m.expirationCache) ∧ ∃ m', reopen m = .ok m' := by
  let request : RedisRequest := [ascii "TIMESTAMPED_LEASE_ACQUIRE", ascii "k", ascii "alice",
    ascii "1000", unsignedIntToBinaryString 10]
  let tx := Transaction.ofRequests [request] true (by decide +kernel)
  obtain ⟨hclock, hnamed, hok⟩ : timestampOf request < 2 ^ 63 ∧ namesNobody request = false ∧
      (dispatchTransaction wholeDoubles readsNothing freshMachine tx 1).map
        (fun r => r.2.expirationCache) = .ok [(1010, ascii "k")] := by decide +kernel
  have ht : TimelyBatch tx := by
    intro r hr inner hw
    cases List.mem_singleton.mp hr
    cases hw with
    | self => exact ⟨hclock, hnamed⟩
    | packed hd => exact absurd ((show _ = Except.ok none from rfl).symm.trans hd) nofun
  obtain ⟨⟨reply, m⟩, hrun, hcache⟩ := exists_of_map_ok hok
  have hr := Leasing.commit .fresh ht hrun
  have hall := leases_are_booked_unless_nobody_is_named _ _ hr
  exact ⟨m, hr, hcache, hall.1, hall.2.1⟩

/-- A client that asks for a lease in nobody's name ends the process. -/
theorem a_lease_for_nobody_fails :
    ∃ tx : Transaction,
      tx.requests = [[ascii "TIMESTAMPED_LEASE_ACQUIRE", ascii "k", [], ascii "1000",
        unsignedIntToBinaryString 10]] ∧
      (∀ request ∈ tx.requests, timestampOf request < 2 ^ 63) ∧
      dispatchTransaction wholeDoubles readsNothing freshMachine tx 1 =
        .error (.assertion "!value.empty()") ∧
      .assertion "!value.empty()" ∈ leaseFaults := by
  let tx := Transaction.ofRequests [[ascii "TIMESTAMPED_LEASE_ACQUIRE", ascii "k", [],
    ascii "1000", unsignedIntToBinaryString 10]] true (by decide +kernel)
  obtain ⟨hclock, hfails⟩ : (∀ request ∈ tx.requests, timestampOf request < 2 ^ 63) ∧
      (dispatchTransaction wholeDoubles readsNothing freshMachine tx 1).map (fun _ => ()) =
        .error (.assertion "!value.empty()") := by decide +kernel
  exact ⟨tx, rfl, hclock, eq_error_of_map hfails, by decide⟩

end quarkdb
