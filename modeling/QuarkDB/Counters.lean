-- Whole runs of the state machine: the descriptors stay true, and no counter is
-- found wrong, as long as no SET stores an empty string and no SMOVE moves an
-- element onto itself.
import QuarkDB.Dispatcher
import QuarkDB.IndexedCommands

namespace quarkdb

open Endian StateMachine StagingArea Tally Outcome RedisDispatcher

/-! ## Commands that go wrong -/

/-- The type that the descriptor of a key names, if it has one. -/
def storedType (store : Store) (key : Bytes) : KeyType :=
  match store.lookup (.descriptor key) with
  | none => .kNull
  | some bytes =>
    match KeyDescriptor.ofBytes bytes with
    | .ok d => d.keyType
    | .error _ => .kParseError

/-- A SET that stores an empty string, which leaves no descriptor; or a SMOVE of an element
to the set that it is in, which counts it once more. -/
def miscounts (request : RedisRequest) (store : Store) : Bool :=
  match getCommand request, request.tail with
  | .SET, [key, value] =>
    value.isEmpty && (storedType store key = .kNull || storedType store key = .kString)
  | .SMOVE, [source, destination, element] =>
    source = destination && (store.lookup (.field .kSet source element)).isSome
  | _, _ => false

/-- A machine holds no more: sizes are kept in 64 bits, with a sign. -/
structure WithinMemory (request : RedisRequest) (store : Store) : Prop where
  keys : 2 * store.keys.length + request.length < 2 ^ 63
  parts : ∀ part ∈ request, part.length < 2 ^ 63

section

variable {s : StagingArea} {n : Nat}

theorem does_reply {α : Type} {c : StagingM α} {reply : α → Bytes}
    (h : Does c s fun _ s' => Inv n s') :
    Does (do return reply (← c)) s fun _ s' => Inv n s' :=
  does_bind.mpr (h.mono fun _ _ hi => hi)

theorem does_hincrbyLoop {args : List Bytes} {s : StagingArea} (hi : Inv (n + args.length) s) :
    Does (hincrbyLoop args) s fun _ s' => Inv n s' := by
  induction args using hincrbyLoop.induct generalizing s with
  | case1 key field incrby rest ih =>
    unfold hincrbyLoop
    rw [does_bind]
    have h1 : Inv (n + rest.length + 2) s := hi.mono (by simp only [List.length_cons]; omega)
    refine (does_hincrby h1 key field incrby).mono fun r s' hi' => ?_
    rw [does_bind]
    exact (ih hi').mono fun _ s'' h => h
  | case2 args hne =>
    unfold hincrbyLoop
    split
    · exact (hne _ _ _ _ rfl).elim
    · exact hi.mono (by omega)

theorem does_convertHashFieldToLhash (hi : Inv (n + 4) s)
    (key field destKey destField destHint : Bytes) :
    Does (convertHashFieldToLhash key field destKey destField destHint) s fun _ s' => Inv n s' := by
  unfold convertHashFieldToLhash
  rw [does_bind]
  refine does_lhget (hi.ok destKey) fun r => ?_
  dsimp only
  split
  · exact hi.mono (by omega)
  rw [does_bind]
  refine does_hget (hi.ok key) fun r => ?_
  split
  · exact hi.mono (by omega)
  rw [does_bind]
  refine (does_lhset (n := n + 1) hi destKey destField destHint _).mono fun r s1 hi1 => ?_
  split
  · exact hi1.mono (by omega)
  split
  · exact ⟨by decide, by decide⟩
  rw [does_bind]
  refine (does_deleteFields hi1 (.inl rfl) nofun key [field]).mono fun r s2 hi2 => ?_
  split
  · exact ⟨by decide, by decide⟩
  · rw [does_bind]
    exact does_assertThat fun _ => hi2

theorem does_dispatchLeaseAcquire (hi : Inv (n + 4) s) {value : Bytes}
    (hlen : value.length < 2 ^ 63) (key durationStr timestampStr : Bytes) :
    Does (dispatchLeaseAcquire key value durationStr timestampStr) s fun _ s' => Inv n s' := by
  unfold dispatchLeaseAcquire
  split
  · exact hi.mono (by omega)
  split
  · exact hi.mono (by omega)
  rw [does_bind]
  refine does_assertThat fun _ => ?_
  dsimp only
  rw [does_bind]
  refine (does_lease_acquire hi hlen key _ _).mono fun r s' hi' => ?_
  split <;> exact hi'

theorem does_dispatchLeaseGet (hi : Inv (n + 1) s) (key timestampStr : Bytes) :
    Does (dispatchLeaseGet key timestampStr) s fun _ s' => Inv n s' := by
  unfold dispatchLeaseGet
  rw [does_bind]
  refine does_assertThat fun _ => ?_
  dsimp only
  rw [does_bind]
  refine (does_lease_get hi key _).mono fun r s' hi' => ?_
  split
  · exact hi'
  · rw [does_bind]
    exact does_assertThat fun _ => hi'

theorem does_dispatchLeaseRelease (hi : Inv (n + 1) s) (key timestampStr : Bytes) :
    Does (dispatchLeaseRelease key timestampStr) s fun _ s' => Inv n s' := by
  unfold dispatchLeaseRelease
  rw [does_bind]
  refine does_assertThat fun _ => ?_
  rw [does_bind]
  refine (does_lease_release hi key _).mono fun st s' hi' => ?_
  split <;> exact hi'

theorem set_condition {store : Store} {key value : Bytes} (hk : KeyOk store key)
    (h : (value.isEmpty && (storedType store key = .kNull || storedType store key = .kString)) =
      false) :
    value ≠ [] ∨ ∃ bytes d, store.lookup (.descriptor key) = some bytes ∧
      KeyDescriptor.ofBytes bytes = .ok d ∧ d.keyType ≠ .kString := by
  cases value with
  | cons c value => exact .inl nofun
  | nil =>
    right
    unfold KeyOk at hk
    rcases hl : store.lookup (.descriptor key) with _ | bytes
    · have hn : storedType store key = .kNull := by
        unfold storedType
        rw [hl]
      rw [hn] at h
      cases h
    · rw [hl] at hk
      obtain ⟨d, hd, -, -⟩ := hk
      have hs : storedType store key = d.keyType := by
        unfold storedType
        rw [hl]
        dsimp only
        rw [hd]
      refine ⟨bytes, d, hl, hd, fun ht => ?_⟩
      rw [hs, ht] at h
      cases h

theorem smove_condition {store : Store} {source destination element : Bytes}
    (h : (source = destination && (store.lookup (.field .kSet source element)).isSome) = false) :
    source ≠ destination ∨ .field .kSet source element ∉ store := by
  rw [Bool.and_eq_false_iff, decide_eq_false_iff_not] at h
  rcases h with h | h
  · exact .inl h
  · right
    rw [← AList.lookup_isSome, h]
    nofun

theorem does_artificiallySlowWrite (hi : Inv n s) (sleep : Bytes) :
    Does (artificiallySlowWriteNeverUseThis sleep) s fun _ s' => Inv n s' := by
  unfold artificiallySlowWriteNeverUseThis
  split
  · exact hi
  · split <;> exact hi

/-- Every command keeps the descriptors true, unless it is one of those that go wrong. -/
theorem does_dispatchCommand (doubles : Doubles) {request : RedisRequest}
    (hi : ∀ key, KeyOk s.store key) (hw : WithinMemory request s.store)
    (hm : miscounts request s.store = false) :
    Does (dispatchCommand doubles request) s fun _ s' => Inv 0 s' := by
  have hroom := hw.keys
  have hinv : ∀ {n : Nat}, n ≤ s.store.keys.length + request.length → Inv n s :=
    fun hn => ⟨hi, by omega⟩
  have hlen : request.tail.length = request.length - 1 := List.length_tail
  have hparts : ∀ part ∈ request.tail, part.length < 2 ^ 63 :=
    fun part hp => hw.parts part (List.mem_of_mem_tail hp)
  unfold miscounts at hm
  unfold dispatchCommand
  dsimp only
  split
  · exact does_reply (does_flushall (hinv (by omega)))
  · exact hinv (Nat.zero_le _)
  · rename_i key value hc ht
    simp only [ht, List.length_cons, List.length_nil] at hlen
    rw [hc, ht] at hm
    exact does_reply (does_set (hinv (by omega)) (hparts value (by simp [ht]))
      (set_condition (hi key) hm))
  · exact hinv (Nat.zero_le _)
  · rename_i key keys hc ht
    simp only [ht, List.length_cons] at hlen
    exact does_reply (does_delKeys _ (hinv (by omega)))
  · exact hinv (Nat.zero_le _)
  · rename_i key field value hc ht
    simp only [ht, List.length_cons, List.length_nil] at hlen
    exact does_reply (does_hset (hinv (by omega)) key field value)
  · exact hinv (Nat.zero_le _)
  · rename_i key field value hc ht
    simp only [ht, List.length_cons, List.length_nil] at hlen
    exact does_reply (does_hsetnx (hinv (by omega)) key field value)
  · exact hinv (Nat.zero_le _)
  · rename_i key args hc ht
    simp only [ht, List.length_cons] at hlen
    split
    · exact hinv (Nat.zero_le _)
    · exact does_reply (does_hmset (hinv (by omega)) key)
  · exact hinv (Nat.zero_le _)
  · rename_i key field incrby hc ht
    simp only [ht, List.length_cons, List.length_nil] at hlen
    exact does_reply (does_hincrby (hinv (by omega)) key field incrby)
  · exact hinv (Nat.zero_le _)
  · rename_i args hc
    split
    · exact hinv (Nat.zero_le _)
    · exact does_reply (does_hincrbyLoop (hinv (by omega)))
  · rename_i key field incrby hc ht
    simp only [ht, List.length_cons, List.length_nil] at hlen
    exact does_reply (does_hincrbyfloat (hinv (by omega)) doubles key field incrby)
  · exact hinv (Nat.zero_le _)
  · rename_i key field fields hc ht
    simp only [ht, List.length_cons] at hlen
    exact does_reply (does_deleteFields (hinv (by omega)) (.inl rfl) nofun key (field :: fields))
  · exact hinv (Nat.zero_le _)
  · rename_i source target hc ht
    simp only [ht, List.length_cons, List.length_nil] at hlen
    exact does_reply (does_hclone (hinv (by omega)) source target)
  · exact hinv (Nat.zero_le _)
  · rename_i key element elements hc ht
    simp only [ht, List.length_cons] at hlen
    exact does_reply (does_sadd (hinv (by rw [List.length_cons]; omega)) key)
  · exact hinv (Nat.zero_le _)
  · rename_i key element elements hc ht
    simp only [ht, List.length_cons] at hlen
    exact does_reply (does_deleteFields (hinv (by omega)) (.inr (.inl rfl)) nofun key (element :: elements))
  · exact hinv (Nat.zero_le _)
  · rename_i source destination element hc ht
    simp only [ht, List.length_cons, List.length_nil] at hlen
    rw [hc, ht] at hm
    exact does_reply (does_smove (hinv (by omega)) (smove_condition hm))
  · exact hinv (Nat.zero_le _)
  · rename_i key item items hc ht
    simp only [ht, List.length_cons] at hlen
    exact does_reply (does_dequePush (hinv (by rw [List.length_cons]; omega))
      (List.cons_ne_nil item items) .kLeft key)
  · exact hinv (Nat.zero_le _)
  · rename_i key item items hc ht
    simp only [ht, List.length_cons] at hlen
    exact does_reply (does_dequePush (hinv (by rw [List.length_cons]; omega))
      (List.cons_ne_nil item items) .kRight key)
  · exact hinv (Nat.zero_le _)
  · rename_i key hc ht
    simp only [ht, List.length_cons, List.length_nil] at hlen
    exact does_reply (does_dequePop (hinv (by omega)) .kLeft key)
  · exact hinv (Nat.zero_le _)
  · rename_i key hc ht
    simp only [ht, List.length_cons, List.length_nil] at hlen
    exact does_reply (does_dequePop (hinv (by omega)) .kRight key)
  · exact hinv (Nat.zero_le _)
  · rename_i key maxToKeep hc ht
    simp only [ht, List.length_cons, List.length_nil] at hlen
    exact does_reply (does_dequeTrimFront (hinv (by omega)) key maxToKeep)
  · exact hinv (Nat.zero_le _)
  · rename_i key hc ht
    simp only [ht, List.length_cons, List.length_nil] at hlen
    exact does_reply (does_dequeTrimFront (hinv (by omega)) key (ascii "0"))
  · exact hinv (Nat.zero_le _)
  · rename_i key value hc ht
    simp only [ht, List.length_cons, List.length_nil] at hlen
    exact does_reply (does_configSet (hinv (by omega)) key value)
  · exact hinv (Nat.zero_le _)
  · rename_i key field hint value hc ht
    simp only [ht, List.length_cons, List.length_nil] at hlen
    exact does_reply (does_lhset (hinv (by omega)) key field hint value)
  · exact hinv (Nat.zero_le _)
  · rename_i key field fields hc ht
    simp only [ht, List.length_cons] at hlen
    exact does_reply (does_lhdel (hinv (by omega)) key (field :: fields))
  · exact hinv (Nat.zero_le _)
  · rename_i key field hint hc ht
    simp only [ht, List.length_cons, List.length_nil] at hlen
    exact does_reply (does_lhlocdel (hinv (by omega)) key field hint)
  · exact hinv (Nat.zero_le _)
  · rename_i key args hc ht
    simp only [ht, List.length_cons] at hlen
    split
    · exact hinv (Nat.zero_le _)
    · exact does_reply (does_lhmset (hinv (by omega)) key)
  · exact hinv (Nat.zero_le _)
  · rename_i key field hint value fallback hc ht
    simp only [ht, List.length_cons, List.length_nil] at hlen
    rw [does_bind]
    refine (does_reply (does_lhset (n := 1) (hinv (by omega)) key field hint value)).mono
      fun resp s1 hi1 => ?_
    rw [does_bind]
    exact (does_reply (does_deleteFields hi1 (.inl rfl) nofun fallback [field])).mono
      fun _ s2 hi2 => hi2
  · exact hinv (Nat.zero_le _)
  · rename_i key field fallback hc ht
    simp only [ht, List.length_cons, List.length_nil] at hlen
    rw [does_bind]
    refine (does_reply (does_lhdel (n := 1) (hinv (by omega)) key [field])).mono
      fun resp s1 hi1 => ?_
    split
    · exact does_reply (does_deleteFields hi1 (.inl rfl) nofun fallback [field])
    · exact hi1.mono (Nat.zero_le _)
  · exact hinv (Nat.zero_le _)
  · rename_i key field destKey destField destHint hc ht
    simp only [ht, List.length_cons, List.length_nil] at hlen
    exact does_convertHashFieldToLhash (hinv (by omega)) key field destKey destField destHint
  · exact hinv (Nat.zero_le _)
  · rename_i key value duration timestamp hc ht
    simp only [ht, List.length_cons, List.length_nil] at hlen
    exact does_dispatchLeaseAcquire (hinv (by omega)) (hparts value (by simp [ht])) key duration
      timestamp
  · exact hinv (Nat.zero_le _)
  · rename_i key timestamp hc ht
    simp only [ht, List.length_cons, List.length_nil] at hlen
    exact does_dispatchLeaseGet (hinv (by omega)) key timestamp
  · exact hinv (Nat.zero_le _)
  · rename_i key timestamp hc ht
    simp only [ht, List.length_cons, List.length_nil] at hlen
    exact does_dispatchLeaseRelease (hinv (by omega)) key timestamp
  · exact hinv (Nat.zero_le _)
  · rename_i sleep hc ht
    simp only [ht, List.length_cons, List.length_nil] at hlen
    exact does_reply (does_artificiallySlowWrite (hinv (Nat.zero_le _)) sleep)
  · exact hinv (Nat.zero_le _)
  · rename_i key field value hc ht
    simp only [ht, List.length_cons, List.length_nil] at hlen
    exact does_reply (does_vhset (hinv (by omega)) key field value)
  · exact hinv (Nat.zero_le _)
  · rename_i key field fields hc ht
    simp only [ht, List.length_cons] at hlen
    exact does_reply (does_vhdel (hinv (by omega)) key (field :: fields))
  · exact hinv (Nat.zero_le _)
  · exact ⟨by decide, by decide⟩

end

/-! ## Batches -/

/-- An error that no wrong counter causes. -/
def Fine {α : Type} (call : Except Fault α) : Prop := ∀ fault, call = .error fault → NoMiscount fault

theorem Fine.bind {α β : Type} {call : Except Fault α} {f : α → Except Fault β} (h : Fine call)
    (hf : ∀ a, Fine (f a)) : Fine (call >>= f) := by
  intro fault he
  cases call with
  | error e =>
    cases he
    exact h _ rfl
  | ok a => exact hf a fault he

theorem fine_ok {α : Type} (a : α) : Fine (.ok a : Except Fault α) := nofun

theorem fine_qdbAssert (holds : Bool) (condition : String) : Fine (qdbAssert holds condition) := by
  intro fault he
  unfold qdbAssert at he
  split at he
  · cases he
  · cases he
    exact noMiscount_assertion _

theorem fine_readBytes (n : Nat) (src : Bytes) : Fine (readBytes n src) := by
  intro fault he
  unfold readBytes at he
  split at he
  · cases he
  · cases he
    exact ⟨nofun, nofun⟩

theorem fine_readChunk (decode : Bytes → Int) (src : Bytes) : Fine (readChunk decode src) := by
  unfold readChunk
  refine (fine_readBytes 8 src).bind fun r => ?_
  dsimp only
  split
  · intro fault he
    cases he
    exact ⟨nofun, nofun⟩
  · exact fine_readBytes _ _

theorem fine_readParts (n : Nat) (src : Bytes) : Fine (Transaction.readParts n src) := by
  induction n generalizing src with
  | zero => exact fine_ok _
  | succ n ih =>
    unfold Transaction.readParts
    refine (fine_readChunk _ src).bind fun r => ?_
    exact (ih r.2).bind fun q => fine_ok _

theorem fine_pushBack (tx : Transaction) (req : RedisRequest) : Fine (tx.pushBack req) := by
  intro fault he
  unfold Transaction.pushBack at he
  split at he
  · cases he
  · cases he
    exact noMiscount_assertion _

theorem fine_readRequests (n : Nat) (tx : Transaction) (src : Bytes) :
    Fine (Transaction.readRequests n tx src) := by
  induction n generalizing tx src with
  | zero => exact fine_ok _
  | succ n ih =>
    unfold Transaction.readRequests Transaction.readRequest
    refine Fine.bind ?_ fun r => ?_
    · exact (fine_readBytes 8 src).bind fun q => fine_readParts _ _
    · exact (fine_pushBack tx r.1).bind fun tx' => ih tx' r.2

theorem fine_deserializePayload (payload : Bytes) :
    Fine (Transaction.deserializePayload payload) := by
  unfold Transaction.deserializePayload
  split
  · exact fine_ok _
  · refine (fine_readBytes 8 payload).bind fun r => ?_
    dsimp only
    split
    · intro fault he
      cases he
      exact ⟨by decide, by decide⟩
    · exact (fine_readRequests _ _ _).bind fun tx => fine_ok _

/-- To unpack a transaction touches no counter. -/
theorem fine_deserialize (request : RedisRequest) : Fine (Transaction.deserialize request) := by
  unfold Transaction.deserialize
  split
  · split
    · exact fine_ok _
    split
    · exact fine_ok _
    refine (fine_deserializePayload _).bind fun o => ?_
    split
    · exact fine_ok _
    dsimp only
    split
    · exact (fine_qdbAssert _ _).bind fun _ => fine_ok _
    · exact (fine_qdbAssert _ _).bind fun _ => fine_ok _
  · exact fine_ok _

section

variable (doubles : Doubles) (dispatchRead : StagingArea → RedisRequest → Except Fault Bytes)

/-- Each request of a list is as it should be in the state that it finds. -/
def SoundAll (run : RedisRequest → StagingM Bytes) (sound : RedisRequest → StagingArea → Prop) :
    List RedisRequest → StagingArea → Prop
  | [], _ => True
  | request :: rest, s => sound request s ∧
      ∀ reply s', run request s = .ok (reply, s') → SoundAll run sound rest s'

/-- A write command that fits into memory and does not go wrong, or a packed transaction of
such commands. -/
def Sound : Nat → RedisRequest → StagingArea → Prop
  | fuel, request, s => getCommandType request = .WRITE ∧
    if getCommand request ≠ .TX_READWRITE then
      WithinMemory request s.store ∧ miscounts request s.store = false
    else
      match fuel with
      | 0 => True
      | fuel + 1 => ∀ tx, Transaction.deserialize request = .ok (some tx) →
          SoundAll (dispatchReadWrite doubles dispatchRead fuel) (Sound fuel) tx.requests s

/-- A batch whose requests are sound one after the other. -/
def SoundBatch (tx : Transaction) (m : Machine) : Prop :=
  SoundAll (dispatchOne doubles dispatchRead)
    (fun request => Sound doubles dispatchRead (bytesIn request) request) tx.requests (stage m)

theorem does_mapM_of_soundAll {run : RedisRequest → StagingM Bytes}
    {sound : RedisRequest → StagingArea → Prop}
    (hrun : ∀ request s, (∀ key, KeyOk s.store key) → sound request s →
      Does (run request) s fun _ s' => ∀ key, KeyOk s'.store key)
    {requests : List RedisRequest} {s : StagingArea} (hi : ∀ key, KeyOk s.store key)
    (hs : SoundAll run sound requests s) :
    Does (requests.mapM run) s fun _ s' => ∀ key, KeyOk s'.store key := by
  have hstep : ∀ request rest s,
      ((∀ key, KeyOk s.store key) ∧ SoundAll run sound (request :: rest) s) →
      Does (run request) s fun _ s' =>
        (∀ key, KeyOk s'.store key) ∧ SoundAll run sound rest s' := by
    rintro request rest s ⟨hok, hsound, hrest⟩
    exact (hrun request s hok hsound).and_ran.mono fun reply s' h => ⟨h.1, hrest reply s' h.2⟩
  exact (yields_mapM (I := fun rest s => (∀ key, KeyOk s.store key) ∧ SoundAll run sound rest s)
    hstep requests ⟨hi, hs⟩).mono fun _ s' h => h.1

theorem does_dispatchReadWrite {fuel : Nat} {request : RedisRequest} {s : StagingArea}
    (hi : ∀ key, KeyOk s.store key) (hs : Sound doubles dispatchRead fuel request s) :
    Does (dispatchReadWrite doubles dispatchRead fuel request) s
      fun _ s' => ∀ key, KeyOk s'.store key := by
  induction fuel generalizing request s with
  | zero =>
    unfold Sound at hs
    unfold dispatchReadWrite
    rw [if_neg (not_not.mpr hs.1)]
    by_cases hc : getCommand request ≠ .TX_READWRITE
    · rw [if_pos hc] at hs ⊢
      exact (does_dispatchCommand doubles hi hs.2.1 hs.2.2).mono fun _ s' h => h.ok
    · rw [if_neg hc]
      exact ⟨by decide, by decide⟩
  | succ fuel ih =>
    unfold Sound at hs
    unfold dispatchReadWrite
    rw [if_neg (not_not.mpr hs.1)]
    by_cases hc : getCommand request ≠ .TX_READWRITE
    · rw [if_pos hc] at hs ⊢
      exact (does_dispatchCommand doubles hi hs.2.1 hs.2.2).mono fun _ s' h => h.ok
    · rw [if_neg hc] at hs ⊢
      rw [does_bind]
      refine does_throwing (fun o ho => ?_) (fine_deserialize request)
      cases o with
      | none => exact noMiscount_assertion _
      | some tx =>
        dsimp only
        rw [does_bind]
        refine does_assertThat fun _ => ?_
        rw [does_bind]
        refine (does_mapM_of_soundAll (fun r s' h1 h2 => ih h1 h2) hi (hs.2 tx ho)).mono
          fun _ s' h => h

theorem commitTransaction_keyOk {m m' : Machine} {s : StagingArea} {index : Int}
    (hi : ∀ key, KeyOk s.store key) (h : commitTransaction m s index = .ok m') :
    ∀ key, KeyOk m'.store key := by
  intro key
  unfold commitTransaction at h
  split at h
  · cases h
  · split at h
    · split at h
      · cases h
      · cases h
        exact KeyOk.insert _ nofun (hi key)
    · cases h
      exact hi key

theorem fine_commitTransaction (m : Machine) (s : StagingArea) (index : Int) :
    Fine (commitTransaction m s index) := by
  intro fault he
  unfold commitTransaction at he
  split at he
  · cases he
    exact ⟨by decide, by decide⟩
  · split at he
    · split at he
      · cases he
        exact ⟨by decide, by decide⟩
      · cases he
    · cases he

/-- A batch keeps the descriptors true, and finds no counter wrong. -/
theorem dispatchTransaction_sound {m : Machine} {tx : Transaction} {index : Int}
    (hi : ∀ key, KeyOk m.store key) (hs : SoundBatch doubles dispatchRead tx m) :
    (∀ reply m', dispatchTransaction doubles dispatchRead m tx index = .ok (reply, m') →
      ∀ key, KeyOk m'.store key) ∧
    Fine (dispatchTransaction doubles dispatchRead m tx index) := by
  have hd : Does (dispatchAll doubles dispatchRead tx) (stage m)
      fun _ s' => ∀ key, KeyOk s'.store key := by
    unfold dispatchAll
    rw [does_bind]
    refine does_assertThat fun _ => ?_
    rw [does_bind]
    refine (does_mapM_of_soundAll ?_ hi hs).mono fun _ s' h => h
    intro request s hok hsound
    exact does_dispatchReadWrite doubles dispatchRead hok hsound
  unfold dispatchTransaction commitAfter
  rcases hc : dispatchAll doubles dispatchRead tx (stage m) with fault | ⟨reply, s⟩
  · have hf := hd.of_error hc
    refine ⟨fun reply m' h => ?_, fun e h => ?_⟩
    · obtain ⟨p, hp, -⟩ := ok_of_bind h
      rw [show (dispatchAll doubles dispatchRead tx).run (stage m) = _ from hc] at hp
      cases hp
    · rw [show (dispatchAll doubles dispatchRead tx).run (stage m) = _ from hc] at h
      cases h
      exact hf
  · have hok := hd.of_ok hc
    rw [bind_of_ok (show (dispatchAll doubles dispatchRead tx).run (stage m) = _ from hc)]
    dsimp only
    split
    · refine ⟨fun reply' m' h => ?_, ?_⟩
      · obtain ⟨m1, hm, h⟩ := ok_of_bind h
        cases h
        exact commitTransaction_keyOk hok hm
      · exact (fine_commitTransaction m s index).bind fun _ => fine_ok _
    · refine ⟨fun reply' m' h => ?_, fine_ok _⟩
      cases h
      exact hi

/-! ## Runs -/

/-- A new state machine has a clock, and has applied nothing. -/
def freshMachine : Machine where
  store := AList.insert .lastApplied (bigInt 0)
    (AList.insert .clock (unsignedIntToBinaryString 0) ∅)
  expirationCache := []
  lastApplied := 0

/-- The state machines that batches lead to. A command that fails ends the process; what
the expiration cache is loaded with at the next start makes no difference here. -/
inductive Reached (allowed : Transaction → Machine → Prop) : Machine → Prop
  | fresh : Reached allowed freshMachine
  | commit {m m' : Machine} {tx : Transaction} {index : Int} {reply : Bytes} :
    Reached allowed m → allowed tx m →
    dispatchTransaction doubles dispatchRead m tx index = .ok (reply, m') → Reached allowed m'
  | restart {m : Machine} (expirationCache : List (UInt64 × Bytes)) :
    Reached allowed m → Reached allowed { m with expirationCache }

theorem freshMachine_keyOk (key : Bytes) : KeyOk freshMachine.store key := by
  have hempty : KeyOk ∅ key := by
    unfold KeyOk
    rw [AList.lookup_empty]
    exact fun k hk => absurd hk (AList.notMem_empty k)
  exact KeyOk.insert _ nofun (KeyOk.insert _ nofun hempty)

theorem Reached.keyOk {m : Machine}
    (h : Reached doubles dispatchRead (SoundBatch doubles dispatchRead) m) :
    ∀ key, KeyOk m.store key := by
  induction h with
  | fresh => exact freshMachine_keyOk
  | commit _ hs hd ih => exact (dispatchTransaction_sound doubles dispatchRead ih hs).1 _ _ hd
  | restart _ _ ih => exact ih

/-- As long as no SET stores an empty string and no SMOVE moves an element onto itself, each
descriptor has the type and the size of the data of its key, and no batch of write commands
fails because a counter is wrong. -/
theorem descriptors_stay_true_unless_a_command_miscounts {m : Machine}
    (h : Reached doubles dispatchRead (SoundBatch doubles dispatchRead) m) :
    Consistent m.store ∧
      ∀ (tx : Transaction) (index : Int), SoundBatch doubles dispatchRead tx m → ∀ fault,
        dispatchTransaction doubles dispatchRead m tx index = .error fault → NoMiscount fault :=
  ⟨consistent_of_keyOk h.keyOk,
    fun _ _ hs => (dispatchTransaction_sound doubles dispatchRead h.keyOk hs).2⟩

end

theorem a_set_of_two_is_counted :
    ∃ m, Reached wholeDoubles readsNothing (SoundBatch wholeDoubles readsNothing) m ∧
      storedSize m.store (ascii "k") .kSet = some 2 ∧ Consistent m.store := by
  let request : RedisRequest := [ascii "SADD", ascii "k", ascii "x", ascii "y"]
  let tx := Transaction.ofRequests [request] false (by decide +kernel)
  obtain ⟨hwrite, hone, hkeys, hparts, hright, hok⟩ :
      getCommandType request = .WRITE ∧ getCommand request ≠ .TX_READWRITE ∧
      2 * (stage freshMachine).store.keys.length + request.length < 2 ^ 63 ∧
      (∀ part ∈ request, part.length < 2 ^ 63) ∧
      miscounts request (stage freshMachine).store = false ∧
      (dispatchTransaction wholeDoubles readsNothing freshMachine tx 1).map (fun r =>
        storedSize r.2.store (ascii "k") .kSet) = .ok (some 2) := by decide +kernel
  have hs : SoundBatch wholeDoubles readsNothing tx freshMachine := by
    refine ⟨⟨hwrite, ?_⟩, fun _ _ _ => trivial⟩
    rw [if_pos hone]
    exact ⟨⟨hkeys, hparts⟩, hright⟩
  obtain ⟨⟨reply, m⟩, hrun, hcount⟩ := exists_of_map_ok hok
  have hr := Reached.commit .fresh hs hrun
  exact ⟨m, hr, hcount, (descriptors_stay_true_unless_a_command_miscounts _ _ hr).1⟩

/-- A set that gives its only element to itself counts it twice, and can not be deleted any
more. -/
theorem a_set_that_gives_to_itself_is_miscounted :
    ∃ (m : Machine) (del : Transaction), Reached wholeDoubles readsNothing (fun _ _ => True) m ∧
      ¬ Consistent m.store ∧ del.requests = [[ascii "DEL", ascii "k"]] ∧
      dispatchTransaction wholeDoubles readsNothing m del 2 = .error (.thrown
        "mismatch between keyInfo counter and number of elements deleted by remove_all_with_prefix: ") := by
  let batch := Transaction.ofRequests [[ascii "SADD", ascii "k", ascii "x"],
    [ascii "SMOVE", ascii "k", ascii "k", ascii "x"]] false (by decide +kernel)
  let del := Transaction.ofRequests [[ascii "DEL", ascii "k"]] true (by decide +kernel)
  have hok : (dispatchTransaction wholeDoubles readsNothing freshMachine batch 1).map (fun r =>
      ((r.2.store.lookup (.descriptor (ascii "k"))).map KeyDescriptor.ofBytes,
        storedSize r.2.store (ascii "k") .kSet,
        (dispatchTransaction wholeDoubles readsNothing r.2 del 2).map fun _ => ())) =
      .ok (some (.ok { keyType := .kSet, sz := 2 }), some 1, .error (.thrown
        "mismatch between keyInfo counter and number of elements deleted by remove_all_with_prefix: ")) := by
    decide +kernel
  obtain ⟨⟨reply, m⟩, hrun, hshows⟩ := exists_of_map_ok hok
  obtain ⟨hdescriptor, hshows⟩ := Prod.mk.inj hshows
  obtain ⟨hcount, hdel⟩ := Prod.mk.inj hshows
  refine ⟨m, del, .commit .fresh trivial hrun, fun h => ?_, rfl, eq_error_of_map hdel⟩
  have hkey := h (ascii "k")
  obtain ⟨bytes, hbytes, hread⟩ := Option.map_eq_some_iff.mp hdescriptor
  rw [hbytes] at hkey
  obtain ⟨d, hd, hs, -⟩ := hkey
  obtain rfl := Except.ok.inj (hread.symm.trans hd)
  exact absurd (hcount.symm.trans hs) (by decide)

end quarkdb
