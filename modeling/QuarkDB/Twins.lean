-- Leases that end at the same time may be cached in any order. The state machine does the
-- same whatever the order is, so it can be opened again between any two batches.
import QuarkDB.Leases
import QuarkDB.Lockstep

namespace quarkdb

open Endian StateMachine StagingArea Outcome RedisDispatcher

/-! ## Deadlines in line -/

/-- What is due first is in front, and no lease is there twice. -/
structure InLine (cache : List (UInt64 × Bytes)) : Prop where
  sorted : cache.Pairwise fun e e' => e.1 ≤ e'.1
  once : (cache.map Prod.snd).Nodup

/-- Two staging areas that differ in the order of their leases only. -/
structure Twin (s s' : StagingArea) : Prop where
  store : s'.store = s.store
  batch : s'.batch = s.batch
  tracker : s'.revisionTracker = s.revisionTracker
  cache : s.expirationCache.Perm s'.expirationCache
  left : InLine s.expirationCache
  right : InLine s'.expirationCache

section

variable {s s' : StagingArea} {cache : List (UInt64 × Bytes)} {deadline : UInt64} {key : Bytes}

theorem InLine.sublist {cache' : List (UInt64 × Bytes)} (h : InLine cache)
    (hs : cache'.Sublist cache) : InLine cache' :=
  ⟨h.sorted.sublist hs, h.once.sublist (hs.map Prod.snd)⟩

theorem inLine_placed (h : InLine cache) (hn : ∀ t, (t, key) ∉ cache) :
    InLine (placed deadline key cache) :=
  ⟨sorted_placed h.sorted, once_placed h.once hn⟩

theorem congruence_twin : Congruence Twin := by
  refine ⟨fun s s' h => h.store, fun s s' k value h => ?_, fun s s' k h => ?_⟩
  · refine ⟨?_, ?_, h.tracker, h.cache, h.left, h.right⟩
    · exact congrArg (fun store : Store => store.insert k value) h.store
    · exact congrArg (fun batch : Store => batch.insert k value) h.batch
  · refine ⟨?_, ?_, h.tracker, h.cache, h.left, h.right⟩
    · exact congrArg (AList.erase k) h.store
    · exact congrArg (AList.erase k) h.batch

theorem sameVersions_twin : SameVersions Twin :=
  ⟨fun _ _ h => h.batch, fun _ _ h => h.tracker,
    fun _ _ _ h => ⟨h.store, h.batch, rfl, h.cache, h.left, h.right⟩⟩

theorem Twin.recache (h : Twin s s') {cache cache' : List (UInt64 × Bytes)}
    (hc : cache.Perm cache') (hl : InLine cache) (hl' : InLine cache') :
    Twin { s with expirationCache := cache } { s' with expirationCache := cache' } :=
  ⟨h.store, h.batch, h.tracker, hc, hl, hl'⟩

theorem lockstep_cacheRemove (deadline : UInt64) (key : Bytes) :
    Lockstep Twin (cacheRemove deadline key) := by
  refine lockstep_get fun s s' h => ?_
  by_cases hm : (deadline, key) ∈ s.expirationCache
  · rw [if_pos hm, if_pos (h.cache.mem_iff.mp hm)]
    refine ⟨rfl, h.recache (h.cache.erase _) ?_ ?_⟩
    · exact h.left.sublist List.erase_sublist
    · exact h.right.sublist List.erase_sublist
  · rw [if_neg hm, if_neg fun hm' => hm (h.cache.mem_iff.mpr hm')]
    trivial

theorem lockstep_cacheInsert (deadline : UInt64) (key : Bytes) :
    Lockstep Twin (cacheInsert deadline key) := by
  refine lockstep_get fun s s' h => ?_
  have hany : (s'.expirationCache.any fun e : UInt64 × Bytes => e.2 = key) =
      s.expirationCache.any fun e : UInt64 × Bytes => e.2 = key := (h.cache.any_eq).symm
  rw [hany]
  rcases ha : s.expirationCache.any fun e : UInt64 × Bytes => e.2 = key
  · have hn : ∀ t, (t, key) ∉ s.expirationCache := by
      intro t hm
      have := List.any_eq_false.mp ha (t, key) hm
      simp at this
    have hn' : ∀ t, (t, key) ∉ s'.expirationCache :=
      fun t hm => hn t (h.cache.mem_iff.mpr hm)
    refine ⟨rfl, h.recache ?_ (inLine_placed h.left hn) (inLine_placed h.right hn')⟩
    exact placed_perm.trans ((h.cache.cons _).trans placed_perm.symm)
  · trivial

/-! ## Releases in any order -/

/-- Where a lease is kept in the store. -/
def leaseKeys (e : UInt64 × Bytes) : List StoreKey :=
  [.expirationEvent e.1 e.2, .lease e.2, .descriptor e.2]

def eraseAll (store : Store) (keys : List StoreKey) : Store :=
  keys.foldl (fun store k => store.erase k) store

theorem eraseAll_perm {keys keys' : List StoreKey} (h : keys.Perm keys') (store : Store) :
    eraseAll store keys = eraseAll store keys' :=
  h.foldl_eq' (fun k _ k' _ store => AList.erase_erase k k' store) store

/-- Nothing is missing of a lease in the store. -/
def Releasable (store : Store) (e : UInt64 × Bytes) : Prop :=
  Leased store e.2 e.1 ∧ .expirationEvent e.1 e.2 ∈ store ∧ .lease e.2 ∈ store

theorem Releasable.congr {store store' : Store} {e : UInt64 × Bytes}
    (h : ∀ k ∈ leaseKeys e, store'.lookup k = store.lookup k) :
    Releasable store' e ↔ Releasable store e := by
  unfold Releasable
  rw [Leased.congr (h _ (by simp [leaseKeys])), mem_congr (h _ (by simp [leaseKeys])),
    mem_congr (h _ (by simp [leaseKeys]))]

theorem yields_mustExist_missing {k : StoreKey} {fault : Fault → Prop} (hk : k ∉ s.store)
    (hf : ∀ e, fault e) {post : Unit → StagingArea → Prop} : Yields (mustExist k) s post fault := by
  unfold mustExist
  rw [yields_bind, yields_keyExists, AList.lookup_eq_none.mpr hk]
  exact hf _

/-- A lease that is cached is released, unless something of it is missing. -/
theorem yields_leaseRelease_cached (h : InLine s.expirationCache)
    (hm : (deadline, key) ∈ s.expirationCache) :
    Yields (leaseRelease key) s
      (fun st s' => (st.ok = true ∧ Releasable s.store (deadline, key) ∧
          s' = s.released deadline key) ∨ st.ok = false ∧ ¬Releasable s.store (deadline, key))
      fun _ => ¬Releasable s.store (deadline, key) := by
  rcases hl : s.store.lookup (.descriptor key) with _ | bytes
  · have hno : ¬Releasable s.store (deadline, key) := by
      rintro ⟨⟨bytes, d, hb, -⟩, -⟩
      rw [hl] at hb
      cases hb
    unfold leaseRelease
    rw [yields_withOperation_fresh hl]
    simp only [WriteOperation.fresh, Bool.not_false, if_true, reduceCtorEq, if_false]
    rw [yields_bind, yields_finalize_gone rfl (by simp), yields_pure]
    exact .inr ⟨rfl, hno⟩
  rcases hd : KeyDescriptor.ofBytes bytes with e | d
  · have hno : ¬Releasable s.store (deadline, key) := by
      rintro ⟨⟨bytes', d, hb, hd', -⟩, -⟩
      rw [hl] at hb
      cases hb
      rw [hd] at hd'
      cases hd'
    unfold leaseRelease withOperation WriteOperation.start getKeyDescriptor
    rw [yields_bind, yields_bind, yields_bind, yields_lookup, hl]
    dsimp only
    rw [hd]
    exact hno
  have hunique : Releasable s.store (deadline, key) →
      d.keyType = .kLease ∧ d.endIndex = deadline := by
    rintro ⟨⟨bytes', d', hb, hd', ht, hi⟩, -⟩
    rw [hl] at hb
    cases hb
    rw [hd] at hd'
    cases hd'
    exact ⟨ht, hi⟩
  by_cases ht : d.keyType = .kLease
  swap
  · unfold leaseRelease withOperation WriteOperation.start getKeyDescriptor
    rw [yields_bind, yields_bind, yields_bind, yields_lookup, hl]
    dsimp only
    rw [hd, throwing_ok, yields_pure, ofBytes_not_empty hd, if_neg Bool.false_ne_true, yields_pure,
      if_neg (by simp [ht]), yields_pure]
    exact .inr ⟨rfl, fun hr => ht (hunique hr).1⟩
  unfold leaseRelease
  rw [yields_withOperation_known hl hd ht (by simp)]
  simp only [Bool.not_true, Bool.false_eq_true, if_false]
  rw [yields_bind]
  by_cases hevent : StoreKey.expirationEvent d.endIndex key ∈ s.store
  swap
  · refine yields_mustExist_missing hevent fun _ hr => hevent ?_
    rw [(hunique hr).2]
    exact hr.2.1
  rw [yields_mustExist hevent, yields_bind]
  by_cases hc : (d.endIndex, key) ∈ s.expirationCache
  swap
  · unfold cacheRemove
    rw [yields_bind, yields_get, if_neg hc]
    intro hr
    rw [(hunique hr).2] at hc
    exact hc hm
  have hi : d.endIndex = deadline := congrArg Prod.fst (List.inj_on_of_nodup_map h.once hc hm rfl)
  subst hi
  rw [yields_cacheRemove hc, yields_bind, yields_del, yields_bind]
  by_cases hholder : StoreKey.lease key ∈ s.store
  · rw [yields_mustExist (AList.mem_erase.mpr ⟨by simp, hholder⟩), yields_bind, yields_del,
      yields_bind, yields_finalize_gone rfl (by rw [ht]; simp), yields_pure]
    exact .inl ⟨rfl, ⟨⟨bytes, d, hl, hd, ht, rfl⟩, hevent, hholder⟩, rfl⟩
  · refine yields_mustExist_missing (fun hh => hholder (AList.mem_erase.mp hh).2) fun _ hr => ?_
    exact hholder hr.2.2

/-- The leases that are due. -/
def due (newValue : UInt64) (cache : List (UInt64 × Bytes)) : List (UInt64 × Bytes) :=
  cache.filter fun e => e.1 ≤ newValue

/-- All leases that are due are gone. -/
def StagingArea.expire (s : StagingArea) (newValue : UInt64) : StagingArea :=
  { s with
    store := eraseAll s.store ((due newValue s.expirationCache).flatMap leaseKeys)
    batch := eraseAll s.batch ((due newValue s.expirationCache).flatMap leaseKeys)
    expirationCache := s.expirationCache.filter fun e => newValue < e.1 }

theorem expire_of_none {newValue : UInt64} (h : ∀ e ∈ s.expirationCache, newValue < e.1) :
    due newValue s.expirationCache = [] ∧ s.expire newValue = s := by
  have hd : due newValue s.expirationCache = [] := by
    refine List.filter_eq_nil_iff.mpr fun e he hle => ?_
    exact absurd (h e he) (UInt64.not_lt.mpr (of_decide_eq_true hle))
  refine ⟨hd, ?_⟩
  unfold StagingArea.expire
  rw [hd, List.filter_eq_self.mpr fun e he => decide_eq_true (h e he)]
  rfl

/-- The first release and those of the rest. -/
theorem expire_cons {newValue : UInt64} {rest : List (UInt64 × Bytes)}
    (hc : s.expirationCache = (deadline, key) :: rest) (hle : deadline ≤ newValue) :
    due newValue s.expirationCache = (deadline, key) :: due newValue rest ∧
      (s.released deadline key).expirationCache = rest ∧
      (s.released deadline key).expire newValue = s.expire newValue := by
  have hd : due newValue s.expirationCache = (deadline, key) :: due newValue rest := by
    rw [hc]
    exact List.filter_cons_of_pos (decide_eq_true hle)
  have hrest : (s.released deadline key).expirationCache = rest := by
    change s.expirationCache.erase (deadline, key) = rest
    rw [hc, List.erase_cons_head]
  refine ⟨hd, hrest, ?_⟩
  have hf : s.expirationCache.filter (fun e => newValue < e.1) =
      rest.filter fun e => newValue < e.1 := by
    rw [hc]
    exact List.filter_cons_of_neg (by simpa using UInt64.not_lt.mpr hle)
  unfold StagingArea.expire
  rw [hd, hf, hrest, List.flatMap_cons]
  rfl

/-- The loop releases all leases that are due, unless something of one of them is missing. -/
theorem yields_releaseExpired_cached (newValue : UInt64) {fuel : Nat} {s : StagingArea}
    (h : InLine s.expirationCache) (hf : s.expirationCache.length ≤ fuel) :
    Yields (releaseExpired fuel newValue) s
      (fun _ s' => (∀ e ∈ due newValue s.expirationCache, Releasable s.store e) ∧
        s' = s.expire newValue)
      fun _ => ¬∀ e ∈ due newValue s.expirationCache, Releasable s.store e := by
  have hahead : ∀ s : StagingArea, (∀ e ∈ s.expirationCache, newValue < e.1) →
      (∀ e ∈ due newValue s.expirationCache, Releasable s.store e) ∧ s = s.expire newValue := by
    intro s hs
    obtain ⟨hd, he⟩ := expire_of_none hs
    rw [hd, he]
    exact ⟨nofun, rfl⟩
  induction fuel generalizing s with
  | zero =>
    have hc : s.expirationCache = [] := List.length_eq_zero_iff.mp (by omega)
    exact hahead s (by rw [hc]; nofun)
  | succ fuel ih =>
    unfold releaseExpired
    rw [yields_bind, yields_get]
    rcases hc : s.expirationCache with _ | ⟨⟨deadline, key⟩, rest⟩ <;> dsimp only
    · rw [yields_pure, ← hc]
      exact hahead s (by rw [hc]; nofun)
    have hs := h.sorted
    rw [hc, List.pairwise_cons] at hs
    split
    · rename_i hle
      obtain ⟨hd, hrest, hexp⟩ := expire_cons hc hle
      rw [yields_bind, ← hc, hd]
      have hm : (deadline, key) ∈ s.expirationCache := by
        rw [hc]
        exact List.mem_cons_self
      refine ((yields_leaseRelease_cached h hm).mono fun st s1 h1 => ?_).weaken
        fun _ hno hall => hno (hall _ List.mem_cons_self)
      rw [yields_bind]
      rcases h1 with ⟨hst, hr, rfl⟩ | ⟨hst, hno⟩
      swap
      · rw [hst]
        exact fun hall => hno (hall _ List.mem_cons_self)
      rw [hst, assertThat_true, yields_pure]
      -- the records of the other leases are not touched
      have honce := h.once
      rw [hc, List.map_cons, List.nodup_cons] at honce
      have hother : ∀ e ∈ due newValue rest,
          Releasable (s.released deadline key).store e ↔ Releasable s.store e := by
        intro e he
        have hk : e.2 ≠ key := by
          intro hk
          have hmem := List.mem_map_of_mem (f := Prod.snd) (List.mem_of_mem_filter he)
          rw [hk] at hmem
          exact honce.1 hmem
        refine Releasable.congr fun k hk' => lookup_released_of_owner ?_
        simp only [leaseKeys, List.mem_cons, List.not_mem_nil, or_false] at hk'
        rcases hk' with rfl | rfl | rfl <;> exact fun ho => hk (Option.some.inj ho)
      have hlen : (s.released deadline key).expirationCache.length ≤ fuel := by
        rw [hrest]
        rw [hc, List.length_cons] at hf
        omega
      have hline : InLine (s.released deadline key).expirationCache :=
        h.sublist List.erase_sublist
      have hih := ih hline hlen
      rw [hrest, hexp] at hih
      refine (hih.mono fun _ s' hs' => ?_).weaken fun _ hno hall => hno fun e he => ?_
      · refine ⟨fun e he => ?_, hs'.2⟩
        rcases List.mem_cons.mp he with rfl | he
        · exact hr
        · exact (hother e he).mp (hs'.1 e he)
      · exact (hother e he).mpr (hall e (List.mem_cons_of_mem _ he))
    · rename_i hlt
      rw [yields_pure, ← hc]
      refine hahead s fun e he => ?_
      rw [hc] at he
      rcases List.mem_cons.mp he with rfl | he
      · exact UInt64.not_le.mp hlt
      · exact UInt64.lt_of_lt_of_le (UInt64.not_le.mp hlt) (hs.1 e he)

theorem Twin.due_perm (h : Twin s s') (newValue : UInt64) :
    (due newValue s.expirationCache).Perm (due newValue s'.expirationCache) :=
  h.cache.filter _

theorem Twin.expire (h : Twin s s') (newValue : UInt64) :
    Twin (s.expire newValue) (s'.expire newValue) := by
  have hkeys := (h.due_perm newValue).flatMap_right leaseKeys
  refine ⟨?_, ?_, h.tracker, h.cache.filter _, h.left.sublist List.filter_sublist,
    h.right.sublist List.filter_sublist⟩
  · change eraseAll s'.store _ = eraseAll s.store _
    rw [h.store, eraseAll_perm hkeys]
  · change eraseAll s'.batch _ = eraseAll s.batch _
    rw [h.batch, eraseAll_perm hkeys]

/-- Whatever the order of the leases is, the same ones are released. -/
theorem together_releaseExpired (h : Twin s s') (newValue : UInt64) :
    Together Twin (releaseExpired s.expirationCache.length newValue s)
      (releaseExpired s'.expirationCache.length newValue s') := by
  have hy := yields_releaseExpired_cached newValue h.left (Nat.le_refl _)
  have hy' := yields_releaseExpired_cached newValue h.right (Nat.le_refl _)
  have hall : (∀ e ∈ due newValue s'.expirationCache, Releasable s'.store e) ↔
      ∀ e ∈ due newValue s.expirationCache, Releasable s.store e := by
    rw [h.store]
    exact forall_congr' fun e => imp_congr_left (h.due_perm newValue).mem_iff.symm
  rw [hall] at hy'
  rcases hr : releaseExpired s.expirationCache.length newValue s with e | ⟨u, t⟩ <;>
    rcases hr' : releaseExpired s'.expirationCache.length newValue s' with e' | ⟨u', t'⟩
  · trivial
  · exact absurd (hy'.of_ok hr').1 (hy.of_error hr)
  · exact absurd (hy.of_ok hr).1 (hy'.of_error hr')
  · refine ⟨rfl, ?_⟩
    rw [(hy.of_ok hr).2, (hy'.of_ok hr').2]
    exact h.expire newValue

theorem lockstep_getClock : Lockstep Twin getClock := by
  refine lockstep_bind (lockstep_lookup congruence_twin _) fun found => ?_
  split
  · exact lockstep_throw _
  · dsimp only
    split
    · exact lockstep_throw_bind _
    · exact lockstep_pure _

theorem lockstep_maybeAdvanceClock (clockUpdate : UInt64) :
    Lockstep Twin (maybeAdvanceClock clockUpdate) := by
  have hadvance : Lockstep Twin (advanceClock clockUpdate) := by
    refine lockstep_bind lockstep_getClock fun prevValue => ?_
    dsimp only
    split
    · exact lockstep_throw_bind _
    refine lockstep_get fun s s' h => ?_
    exact together_bind (together_releaseExpired h clockUpdate) fun _ t t' ht =>
      lockstep_put congruence_twin _ _ t t' ht
  refine lockstep_bind lockstep_getClock fun currentClock => ?_
  split
  · exact lockstep_bind hadvance fun _ => lockstep_pure _
  · exact lockstep_pure _

theorem sameLeases_twin : SameLeases Twin :=
  ⟨lockstep_cacheRemove, lockstep_cacheInsert, lockstep_maybeAdvanceClock,
    fun _ _ h => h.recache (List.Perm.refl _) ⟨List.Pairwise.nil, List.nodup_nil⟩
      ⟨List.Pairwise.nil, List.nodup_nil⟩⟩

end

end quarkdb
