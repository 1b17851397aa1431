-- Leases exclude each other: whoever holds a lease is the only one who does, until the
-- clock of the state machine reaches the deadline.
import QuarkDB.Leases

namespace quarkdb

open Endian StateMachine StagingArea Outcome RedisDispatcher

/-! ## Steps of a run -/

/-- The clock of the state machine. -/
def clockOf (s : StagingArea) : UInt64 :=
  match s.store.lookup .clock with
  | some value => binaryStringToUnsignedInt value
  | none => 0

theorem Ledger.clockOf_eq {now : UInt64} {s : StagingArea} {cache : List (UInt64 × Bytes)}
    (h : Ledger now s.store cache) : clockOf s = now := by
  unfold clockOf
  rw [h.clock]
  exact binaryStringToUnsignedInt_unsignedIntToBinaryString now

section

variable (doubles : Doubles) (dispatchRead : StagingArea → RedisRequest → Except Fault Bytes)

/-- What committed commands do, one after the other: each may be told by its request and by what
it leads to. A commit starts a new staging area on the same data, and between two commits the
state machine may be opened again. -/
inductive Steps (allowed : RedisRequest → StagingArea → Prop) (s : StagingArea) :
    StagingArea → Prop
  | refl : Steps allowed s s
  | command {s1 s2 : StagingArea} {request : RedisRequest} {reply : Bytes} :
    Steps allowed s s1 → allowed request s2 →
    dispatchCommand doubles request s1 = .ok (reply, s2) → Steps allowed s s2
  | commit {s1 s2 : StagingArea} :
    Steps allowed s s1 → s2.expirationCache = s1.expirationCache →
    (∀ k ≠ .lastApplied, s2.store.lookup k = s1.store.lookup k) → Steps allowed s s2
  | reopen {m m' : Machine} :
    Steps allowed s (stage m) → reopen m = .ok m' → Steps allowed s (stage m')

/-- Any committed commands. -/
abbrev AnySteps (s s' : StagingArea) : Prop := Steps doubles (fun _ _ => True) s s'

variable {doubles}

/-- A batch is made of such steps. -/
theorem steps_of_batch {m m' : Machine} {tx : Transaction} {index : Int} {reply : Bytes}
    {s : StagingArea} (hs : AnySteps doubles s (stage m))
    (hd : dispatchTransaction doubles dispatchRead m tx index = .ok (reply, m')) :
    AnySteps doubles s (stage m') := by
  refine dispatchTransaction_keeps doubles dispatchRead (fun _ => True) ?_ ?_ hs
    (fun _ _ _ _ => trivial) hd
  · intro request _ _ _ s1 hs1
    exact yields_ran.mono fun reply s2 hc => hs1.command trivial hc
  · intro s1 s2 hs1 hcache hsame
    exact hs1.commit hcache hsame

theorem Leasing.steps {allowed : Transaction → Prop} {m : Machine}
    (h : Leasing doubles dispatchRead allowed m) :
    AnySteps doubles (stage freshMachine) (stage m) := by
  induction h with
  | fresh => exact .refl
  | commit _ _ hd ih => exact steps_of_batch dispatchRead ih hd
  | reopen _ hr ih => exact ih.reopen hr

variable {allowed : RedisRequest → StagingArea → Prop} {s s' : StagingArea} {now : UInt64}

/-- What one command does, whatever it is. -/
theorem handled_of_ok {request : RedisRequest} {reply : Bytes}
    (h : Ledger now s.store s.expirationCache)
    (hd : dispatchCommand doubles request s = .ok (reply, s')) :
    ∃ now', Handled request now s now' s' :=
  (yields_handled doubles h (fun _ _ => trivial) (.inr trivial)).of_ok hd

theorem Handled.le {request : RedisRequest} {now' : UInt64}
    (hh : Handled request now s now' s') : now ≤ now' := by
  rcases hh.clock with rfl | rfl
  · exact UInt64.le_refl _
  · exact le_later _ _

/-- The ledger is kept, and the clock is never set back. -/
theorem Steps.ledger (hs : Steps doubles allowed s s')
    (h : Ledger now s.store s.expirationCache) :
    ∃ now', now ≤ now' ∧ Ledger now' s'.store s'.expirationCache := by
  induction hs with
  | refl => exact ⟨now, UInt64.le_refl _, h⟩
  | command _ _ hd ih =>
    obtain ⟨now1, hle, h1⟩ := ih
    obtain ⟨now2, hh⟩ := handled_of_ok h1 hd
    exact ⟨now2, UInt64.le_trans hle hh.le, hh.ledger⟩
  | commit _ hcache hsame ih =>
    obtain ⟨now1, hle, h1⟩ := ih
    refine ⟨now1, hle, ?_⟩
    rw [hcache]
    exact h1.unapplied hsame
  | reopen _ hr ih =>
    obtain ⟨now1, hle, h1⟩ := ih
    obtain ⟨m', hm', h2, -⟩ := reopen_ledger h1
    rw [hm'] at hr
    cases hr
    exact ⟨now1, hle, h2⟩

theorem Ledger.same_cache {store store' : Store} {cache cache' : List (UInt64 × Bytes)}
    (h : Ledger now store cache) (h' : Ledger now store' cache')
    (hsame : ∀ k ≠ .lastApplied, store'.lookup k = store.lookup k) (e : UInt64 × Bytes) :
    e ∈ cache' ↔ e ∈ cache := by
  rw [← h.events e.1 e.2, ← h'.events e.1 e.2, mem_congr (hsame _ (by nofun))]

/-- A lease that no command changes is held until its deadline. -/
theorem Steps.held {key value : Bytes} {deadline : UInt64}
    (hs : Steps doubles (fun r s2 => changesLease r key value = false ∧ clockOf s2 < deadline) s s')
    (h : Ledger now s.store s.expirationCache) (hm : (deadline, key) ∈ s.expirationCache)
    (hv : s.store.lookup (.lease key) = some value) :
    (deadline, key) ∈ s'.expirationCache ∧ s'.store.lookup (.lease key) = some value := by
  induction hs with
  | refl => exact ⟨hm, hv⟩
  | command hs1 ha hd ih =>
    obtain ⟨now1, -, h1⟩ := hs1.ledger h
    obtain ⟨now2, hh⟩ := handled_of_ok h1 hd
    have hlt : now2 < deadline := by
      rw [← hh.ledger.clockOf_eq]
      exact ha.2
    obtain ⟨hcache, hholder⟩ := hh.kept key value deadline ih.1 ih.2 hlt ha.1
    exact ⟨(hcache deadline).mpr ih.1, hholder.trans ih.2⟩
  | commit _ hcache hsame ih =>
    rw [hcache, hsame _ (by nofun)]
    exact ih
  | reopen hs1 hr ih =>
    obtain ⟨now1, -, h1⟩ := hs1.ledger h
    obtain ⟨m', hm', h2, hsame⟩ := reopen_ledger h1
    rw [hm'] at hr
    cases hr
    exact ⟨(h1.same_cache h2 hsame _).mpr ih.1, (hsame _ (by nofun)).trans ih.2⟩

/-- Without a request for it, there is no new lease on a key. -/
theorem Steps.old {key : Bytes} {t : UInt64}
    (hs : Steps doubles (fun r _ => wantsLease r key = false) s s')
    (h : Ledger now s.store s.expirationCache) (hm : (t, key) ∈ s'.expirationCache) :
    (t, key) ∈ s.expirationCache := by
  induction hs with
  | refl => exact hm
  | command hs1 ha hd ih =>
    obtain ⟨now1, -, h1⟩ := hs1.ledger h
    obtain ⟨now2, hh⟩ := handled_of_ok h1 hd
    exact ih (hh.old key t ha hm)
  | commit _ hcache _ ih =>
    rw [hcache] at hm
    exact ih hm
  | reopen hs1 hr ih =>
    obtain ⟨now1, -, h1⟩ := hs1.ledger h
    obtain ⟨m', hm', h2, hsame⟩ := reopen_ledger h1
    rw [hm'] at hr
    cases hr
    exact ih ((h1.same_cache h2 hsame _).mp hm)

end

/-! ## Requests and replies -/

/-- A well-formed LEASE_ACQUIRE. -/
def Acquires (request : RedisRequest) (key holder : Bytes) (duration timestamp : UInt64) : Prop :=
  getCommand request = .TIMESTAMPED_LEASE_ACQUIRE ∧ ∃ durationStr timestampStr d,
    request.tail = [key, holder, durationStr, timestampStr] ∧ parseInt64 durationStr = some d ∧
    1 ≤ d ∧ duration = UInt64.ofNat d.toNat ∧ timestamp = binaryStringToUnsignedInt timestampStr

/-- A well-formed LEASE_GET. -/
def Asks (request : RedisRequest) (key : Bytes) (timestamp : UInt64) : Prop :=
  getCommand request = .TIMESTAMPED_LEASE_GET ∧ ∃ timestampStr,
    request.tail = [key, timestampStr] ∧ timestamp = binaryStringToUnsignedInt timestampStr

def heldReply (holder : Bytes) (remaining : Int) : Bytes :=
  Formatter.err (ascii "lease held by '" ++ holder ++ ascii "', time remaining " ++
    decimal remaining ++ ascii " ms")

def holderReply (holder : Bytes) (remaining : Int) : Bytes :=
  Formatter.statusVector [ascii "HOLDER: " ++ holder,
    ascii "REMAINING: " ++ decimal remaining ++ ascii " ms"]

def wrongTypeReply : Bytes :=
  Formatter.err (ascii
    "Invalid Argument: WRONGTYPE Operation against a key holding the wrong kind of value")

/-- The reply to an acquisition, for what it came to. -/
def acquireReply (timestamp : UInt64) : LeaseAcquisitionStatus × Bytes × UInt64 → Bytes
  | (.kKeyTypeMismatch, _, _) => wrongTypeReply
  | (.kAcquired, _, _) => Formatter.status (ascii "ACQUIRED")
  | (.kRenewed, _, _) => Formatter.status (ascii "RENEWED")
  | (.kFailedDueToOtherOwner, holder, deadline) => heldReply holder (deadline - timestamp).toNat

section

variable {doubles : Doubles} {request : RedisRequest} {key holder reply : Bytes}
  {duration timestamp now : UInt64} {s s' : StagingArea}

theorem dispatch_acquires (ha : Acquires request key holder duration timestamp)
    (hd : dispatchCommand doubles request s = .ok (reply, s')) :
    ∃ result, lease_acquire key holder timestamp duration s = .ok (result, s') ∧
      reply = acquireReply timestamp result := by
  obtain ⟨hc, durationStr, timestampStr, d, ht, hp, hpos, rfl, rfl⟩ := ha
  have hy : Yields (dispatchCommand doubles request) s (fun reply s' => ∃ result,
      lease_acquire key holder (binaryStringToUnsignedInt timestampStr) (UInt64.ofNat d.toNat) s =
        .ok (result, s') ∧
      reply = acquireReply (binaryStringToUnsignedInt timestampStr) result) fun _ => True := by
    unfold dispatchCommand
    rw [hc, ht]
    dsimp only
    unfold dispatchLeaseAcquire
    rw [hp]
    dsimp only
    rw [if_neg (by omega)]
    refine yields_assertThat trivial fun _ => ?_
    rw [yields_bind]
    refine yields_ran.mono fun result s1 hrun => ?_
    obtain ⟨status, rest⟩ := result
    cases status <;> exact ⟨_, hrun, rfl⟩
  exact hy.of_ok hd

theorem dispatch_asks (ha : Asks request key timestamp)
    (hd : dispatchCommand doubles request s = .ok (reply, s')) :
    ∃ result, lease_get key timestamp s = .ok (result, s') ∧
      (result.1 = .NotFound ∧ reply = Formatter.null ∨ result.1 = .OK ∧
        reply = holderReply result.2.1 (result.2.2 - timestamp).toNat) := by
  obtain ⟨hc, timestampStr, ht, rfl⟩ := ha
  have hy : Yields (dispatchCommand doubles request) s (fun reply s' => ∃ result,
      lease_get key (binaryStringToUnsignedInt timestampStr) s = .ok (result, s') ∧
      (result.1 = .NotFound ∧ reply = Formatter.null ∨ result.1 = .OK ∧ reply =
        holderReply result.2.1 (result.2.2 - binaryStringToUnsignedInt timestampStr).toNat))
      fun _ => True := by
    unfold dispatchCommand
    rw [hc, ht]
    dsimp only
    unfold dispatchLeaseGet
    refine yields_assertThat trivial fun _ => ?_
    rw [yields_bind]
    refine yields_ran.mono fun result s1 hrun => ?_
    obtain ⟨st, holder, deadline⟩ := result
    dsimp only
    split
    · rename_i hn
      exact ⟨_, hrun, .inl ⟨of_decide_eq_true hn, rfl⟩⟩
    · refine yields_assertThat trivial fun hok => ?_
      exact ⟨_, hrun, .inr ⟨of_decide_eq_true hok, rfl⟩⟩
  exact hy.of_ok hd

/-- What an acquisition did, if it did not fail. -/
theorem acquisition_of_ok {result : LeaseAcquisitionStatus × Bytes × UInt64}
    (h : Ledger now s.store s.expirationCache) (hz : duration ≠ 0)
    (hrun : lease_acquire key holder timestamp duration s = .ok (result, s')) :
    Ledger (later now timestamp) s'.store s'.expirationCache ∧
      ∃ s1, Ledger (later now timestamp) s1.store s1.expirationCache ∧
        Expired (later now timestamp) s s1 ∧
        Acquisition key holder (later now timestamp + duration) s1 result s' := by
  have hne : holder ≠ [] := by
    rintro rfl
    unfold lease_acquire at hrun
    cases hrun
  exact (@yields_lease_acquire _ _ _ _ (fun _ => True) _ _ h hne hz fun _ => trivial).of_ok hrun

theorem Acquires.duration_ne_zero (ha : Acquires request key holder duration timestamp) :
    duration ≠ 0 := by
  obtain ⟨-, durationStr, timestampStr, d, -, hp, hpos, rfl, -⟩ := ha
  intro h0
  have hb := (parseInt64_bounds hp).2
  have hn := congrArg UInt64.toNat h0
  rw [UInt64.toNat_ofNat'] at hn
  have hn' : d.toNat % 2 ^ 64 = 0 := hn
  omega

/-- What remains until a deadline that is ahead. -/
theorem remaining {deadline : UInt64} (hlt : timestamp < deadline) :
    (((deadline - timestamp).toNat : Nat) : Int) = deadline.toNat - timestamp.toNat := by
  rw [UInt64.toNat_sub_of_le _ _ (UInt64.le_of_lt hlt)]
  rw [UInt64.lt_iff_toNat_lt] at hlt
  omega

end

/-! ## Exclusion -/

section

variable (doubles : Doubles)

/-- From here on, `value` has the lease on a key until the deadline, unless it is renewed or
ended: whoever else asks for it fails and is told so, and whoever looks is told the holder. From
the deadline on, the first to ask gets it, unless the key has another type by then. -/
def Exclusive (key value : Bytes) (deadline : UInt64) (s1 : StagingArea) : Prop :=
  ∀ s2, Steps doubles (fun r s => changesLease r key value = false ∧ clockOf s < deadline) s1 s2 →
    (∀ request holder duration timestamp reply s3,
      Acquires request key holder duration timestamp → holder ≠ value →
      dispatchCommand doubles request s2 = .ok (reply, s3) → clockOf s3 < deadline →
      timestamp < deadline ∧ reply = heldReply value (deadline.toNat - timestamp.toNat)) ∧
    (∀ request timestamp reply s3, Asks request key timestamp →
      dispatchCommand doubles request s2 = .ok (reply, s3) → clockOf s3 < deadline →
      timestamp < deadline ∧ reply = holderReply value (deadline.toNat - timestamp.toNat)) ∧
    ∀ s3, Steps doubles (fun r _ => wantsLease r key = false) s2 s3 →
      ∀ request holder duration timestamp reply s4,
        Acquires request key holder duration timestamp →
        dispatchCommand doubles request s3 = .ok (reply, s4) → deadline ≤ clockOf s4 →
        reply = Formatter.status (ascii "ACQUIRED") ∨
        reply = wrongTypeReply ∧ storedType s4.store key ≠ .kNull ∧
          storedType s4.store key ≠ .kLease

variable {doubles} {key value : Bytes} {deadline now : UInt64} {s : StagingArea}

/-- While the lease is held, others fail. -/
theorem others_fail (h : Ledger now s.store s.expirationCache)
    (hm : (deadline, key) ∈ s.expirationCache) (hv : s.store.lookup (.lease key) = some value)
    {request : RedisRequest} {holder reply : Bytes} {duration timestamp : UInt64} {s' : StagingArea}
    (ha : Acquires request key holder duration timestamp) (hne : holder ≠ value)
    (hd : dispatchCommand doubles request s = .ok (reply, s')) (hlt : clockOf s' < deadline) :
    timestamp < deadline ∧ reply = heldReply value (deadline.toNat - timestamp.toNat) := by
  obtain ⟨result, hrun, rfl⟩ := dispatch_acquires ha hd
  obtain ⟨hl', s1, h1, hexp, hacq⟩ := acquisition_of_ok h ha.duration_ne_zero hrun
  rw [hl'.clockOf_eq] at hlt
  obtain ⟨hcache, hholder⟩ := hexp.sameLease h hm hlt
  have hm1 : (deadline, key) ∈ s1.expirationCache := (hcache deadline).mpr hm
  have hv1 : s1.store.lookup (.lease key) = some value := hholder.trans hv
  have ht : timestamp < deadline := UInt64.lt_of_le_of_lt (update_le_later now timestamp) hlt
  refine ⟨ht, ?_⟩
  unfold Acquisition at hacq
  split at hacq
  · exact absurd hm1 (hacq.2.1 deadline)
  · obtain ⟨-, hm2, hv2, -⟩ := hacq
    rw [hv1] at hv2
    cases hv2
    cases h1.unique hm1 hm2
    show heldReply value _ = _
    rw [remaining ht]
  · exact absurd hacq.2.2.1 (h1.descriptor_ne_none hm1)
  · have hown := hacq.2.2.2.1
    rw [hv1] at hown
    exact absurd (Option.some.inj hown).symm hne

/-- While the lease is held, it is seen. -/
theorem holder_is_seen (h : Ledger now s.store s.expirationCache)
    (hm : (deadline, key) ∈ s.expirationCache) (hv : s.store.lookup (.lease key) = some value)
    {request : RedisRequest} {reply : Bytes} {timestamp : UInt64} {s' : StagingArea}
    (ha : Asks request key timestamp) (hd : dispatchCommand doubles request s = .ok (reply, s'))
    (hlt : clockOf s' < deadline) :
    timestamp < deadline ∧ reply = holderReply value (deadline.toNat - timestamp.toNat) := by
  obtain ⟨result, hrun, hreply⟩ := dispatch_asks ha hd
  obtain ⟨hl', hexp, hans⟩ := (@yields_lease_get _ _ key (fun _ => True) timestamp h).of_ok hrun
  rw [hl'.clockOf_eq] at hlt
  obtain ⟨hcache, hholder⟩ := hexp.sameLease h hm hlt
  have hm1 : (deadline, key) ∈ s'.expirationCache := (hcache deadline).mpr hm
  have hv1 : s'.store.lookup (.lease key) = some value := hholder.trans hv
  have ht : timestamp < deadline := UInt64.lt_of_le_of_lt (update_le_later now timestamp) hlt
  refine ⟨ht, ?_⟩
  rcases hans with ⟨t, holder, hm2, hv2, rfl⟩ | ⟨hn, -⟩
  · rw [hv1] at hv2
    cases hv2
    cases hl'.unique hm1 hm2
    rcases hreply with ⟨h0, -⟩ | ⟨-, rfl⟩
    · cases h0
    · rw [remaining ht]
  · exact absurd hm1 (hn deadline)

/-- When the deadline of the only lease there may be has passed, the key is free, or is no
lease. -/
theorem first_succeeds (h : Ledger now s.store s.expirationCache)
    (hold : ∀ t, (t, key) ∈ s.expirationCache → t = deadline) {request : RedisRequest}
    {holder reply : Bytes} {duration timestamp : UInt64} {s' : StagingArea}
    (ha : Acquires request key holder duration timestamp)
    (hd : dispatchCommand doubles request s = .ok (reply, s')) (hle : deadline ≤ clockOf s') :
    reply = Formatter.status (ascii "ACQUIRED") ∨
    reply = wrongTypeReply ∧ storedType s'.store key ≠ .kNull ∧
      storedType s'.store key ≠ .kLease := by
  obtain ⟨result, hrun, rfl⟩ := dispatch_acquires ha hd
  obtain ⟨hl', s1, h1, hexp, hacq⟩ := acquisition_of_ok h ha.duration_ne_zero hrun
  rw [hl'.clockOf_eq] at hle
  have hfree : ∀ t, (t, key) ∉ s1.expirationCache := by
    intro t hm
    rw [hexp.cache, List.mem_filter] at hm
    rw [hold t hm.1] at hm
    exact UInt64.not_lt.mpr hle (of_decide_eq_true hm.2)
  unfold Acquisition at hacq
  split at hacq
  · obtain ⟨rfl, hn, hdesc⟩ := hacq
    refine .inr ⟨rfl, ?_⟩
    obtain ⟨bytes, hb⟩ := Option.ne_none_iff_exists'.mp hdesc
    obtain ⟨d, hd'⟩ := h1.valid key bytes hb
    have hs : storedType s'.store key = d.keyType := by
      unfold storedType
      rw [hb]
      dsimp only
      rw [hd']
    rw [hs]
    exact ⟨of_decide_eq_false (ofBytes_not_empty hd'), h1.not_leased hn hb hd'⟩
  · exact absurd hacq.2.1 (hfree _)
  · exact .inl rfl
  · obtain ⟨-, -, ⟨t, hm⟩, -⟩ := hacq
    exact absurd hm (hfree t)

theorem exclusive_of_held (h : Ledger now s.store s.expirationCache)
    (hm : (deadline, key) ∈ s.expirationCache) (hv : s.store.lookup (.lease key) = some value) :
    Exclusive doubles key value deadline s := by
  intro s2 hs2
  obtain ⟨now2, -, h2⟩ := hs2.ledger h
  obtain ⟨hm2, hv2⟩ := hs2.held h hm hv
  refine ⟨?_, ?_, ?_⟩
  · intro request holder duration timestamp reply s3 ha hne hd hlt
    exact others_fail h2 hm2 hv2 ha hne hd hlt
  · intro request timestamp reply s3 ha hd hlt
    exact holder_is_seen h2 hm2 hv2 ha hd hlt
  · intro s3 hs3 request holder duration timestamp reply s4 ha hd hle
    obtain ⟨now3, -, h3⟩ := hs3.ledger h2
    exact first_succeeds h3 (fun t hm3 => h2.unique (hs3.old h2 hm3) hm2) ha hd hle

/-- An acquisition that succeeds holds until the clock of then plus the duration. -/
theorem held_of_acquired (h : Ledger now s.store s.expirationCache) {request : RedisRequest}
    {reply : Bytes} {duration timestamp : UInt64} {s' : StagingArea}
    (ha : Acquires request key value duration timestamp)
    (hd : dispatchCommand doubles request s = .ok (reply, s'))
    (hok : reply = Formatter.status (ascii "ACQUIRED") ∨
      reply = Formatter.status (ascii "RENEWED")) :
    Ledger (clockOf s') s'.store s'.expirationCache ∧
      (clockOf s' + duration, key) ∈ s'.expirationCache ∧
      s'.store.lookup (.lease key) = some value := by
  obtain ⟨result, hrun, rfl⟩ := dispatch_acquires ha hd
  obtain ⟨hl', s1, h1, hexp, hacq⟩ := acquisition_of_ok h ha.duration_ne_zero hrun
  rw [hl'.clockOf_eq]
  -- errors and statuses differ in their first byte
  have herr : ∀ message word, Formatter.err message ≠ Formatter.status word := by
    intro message word he
    exact absurd (congrArg List.head? he) (by simp [Formatter.err, Formatter.status, ascii])
  have hgranted : ∀ {s''}, Granted key value (later now timestamp + duration) s1 s'' →
      (later now timestamp + duration, key) ∈ s''.expirationCache ∧
      s''.store.lookup (.lease key) = some value :=
    fun hg => ⟨(hg.cache _ key).mpr (by rw [if_pos rfl]), hg.holder⟩
  refine ⟨hl', ?_⟩
  unfold Acquisition at hacq
  split at hacq
  · rcases hok with hok | hok
    · exact absurd hok (herr _ _)
    · exact absurd hok (herr _ _)
  · rcases hok with hok | hok
    · exact absurd hok (herr _ _)
    · exact absurd hok (herr _ _)
  · exact hgranted hacq.2.2.2
  · exact hgranted hacq.2.2.2.2

end

end quarkdb
