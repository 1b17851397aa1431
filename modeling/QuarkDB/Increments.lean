-- Increments: what HINCRBY adds to a field, and what HINCRBYMULTI says that it added. Sums wrap
-- around, and a value that is no number leaves what was read of it in the sum of the others.
import QuarkDB.ErrorReplies
import QuarkDB.SingleDeletes

namespace quarkdb

open Endian StateMachine StagingArea Outcome RedisDispatcher Formatter Tally

/-! ## Numbers in hashes -/

/-- What hashes hold. A key of another type holds no fields, and can not. -/
abbrev Hashes := Bytes → Option (Bytes → Option Bytes)

namespace Hashes

/-- The number that a field holds and the one to add, if both are numbers. -/
def operands (h : Hashes) (key field incrby : Bytes) : Option (Int × Int) := do
  let incr ← parseInt64 incrby
  let fields ← h key
  match fields field with
  | none => some (0, incr)
  | some value => (parseInt64 value).map fun old => (old, incr)

def put (h : Hashes) (key field value : Bytes) : Hashes :=
  Function.update h key ((h key).map fun fields => Function.update fields field (some value))

/-- The number that an increment stores, if it succeeds. -/
def stored (h : Hashes) (key field incrby : Bytes) : Option Int :=
  (h.operands key field incrby).map fun p => signed (p.1 + p.2)

/-- What an increment that fails has in its result: where the value of the field is no number,
what was read of it. -/
def remnant (h : Hashes) (key field incrby : Bytes) : Int :=
  match parseInt64 incrby, (h key).bind fun fields => fields field with
  | some _, some value => if (parseInt64 value).isSome then 0 else strtoll value
  | _, _ => 0

/-- An increment that fails changes nothing. -/
def increment (h : Hashes) (key field incrby : Bytes) : Hashes :=
  match h.stored key field incrby with
  | none => h
  | some n => h.put key field (decimal n)

/-- The hashes after some triples. -/
def incrementAll (h : Hashes) : List Bytes → Hashes
  | key :: field :: incrby :: rest => (h.increment key field incrby).incrementAll rest
  | _ => h

/-- The numbers that the triples store. -/
def storedBy (h : Hashes) : List Bytes → List Int
  | key :: field :: incrby :: rest =>
    (h.stored key field incrby).toList ++ (h.increment key field incrby).storedBy rest
  | _ => []

def remnants (h : Hashes) : List Bytes → List Int
  | key :: field :: incrby :: rest =>
    h.remnant key field incrby :: (h.increment key field incrby).remnants rest
  | _ => []

end Hashes

/-- The hashes that a store has. -/
def hashesOf (store : Store) : Hashes := fun key =>
  if isOther store key .kHash then none else some fun field => store.lookup (.field .kHash key field)

/-- Descriptors can be read, no hash is empty, and `n` more fields can be counted. -/
structure Countable (n : Nat) (store : Store) : Prop where
  room : n < 2 ^ 63
  descriptors : ∀ key bytes, store.lookup (.descriptor key) = some bytes →
    ∃ d, KeyDescriptor.ofBytes bytes = .ok d ∧ (d.keyType = .kHash → 0 < d.sz ∧ d.sz + n < 2 ^ 63)

/-- HINCRBY stores the sum and replies with it, or it replies with an error and changes
nothing. -/
def HincrbyExact (doubles : Doubles) (s : StagingArea) (request : RedisRequest)
    (key field incrby : Bytes) : Prop :=
  ∃ reply s', dispatchCommand doubles request s = .ok (reply, s') ∧
    ((∃ old incr, (hashesOf s.store).operands key field incrby = some (old, incr) ∧
        InWord (old + incr) ∧ reply = integer (old + incr) ∧
        hashesOf s'.store = (hashesOf s.store).put key field (decimal (old + incr))) ∨
      isError reply = true ∧ ∀ k, s'.store.lookup k = s.store.lookup k)

/-- The triples that succeed store numbers, the others change nothing, and HINCRBYMULTI replies
with the sum of the numbers that are stored. -/
def HincrbymultiExact (doubles : Doubles) (s : StagingArea) (request : RedisRequest)
    (args : List Bytes) : Prop :=
  ∃ reply s', dispatchCommand doubles request s = .ok (reply, s') ∧
    hashesOf s'.store = (hashesOf s.store).incrementAll args ∧
    reply = integer ((hashesOf s.store).storedBy args).sum

/-! ## Operations on hashes -/

section

variable {n : Nat} {s : StagingArea} {key : Bytes} {store : Store} {fault : Fault → Prop}

theorem Countable.mono {m : Nat} (h : Countable n store) (hm : m ≤ n) : Countable m store := by
  refine ⟨by have := h.room; omega, fun key bytes hl => ?_⟩
  obtain ⟨d, hd, hsz⟩ := h.descriptors key bytes hl
  refine ⟨d, hd, fun ht => ?_⟩
  have := hsz ht
  omega

/-- Where the descriptors are true, the fields of the hashes can be counted. -/
theorem Inv.countable (h : Inv n s) : Countable n s.store := by
  refine ⟨by have := h.room; omega, fun key bytes hl => ?_⟩
  have hk := h.ok key
  unfold KeyOk at hk
  rw [hl] at hk
  obtain ⟨d, hd, hdata, hz⟩ := hk
  refine ⟨d, hd, fun ht => ?_⟩
  have hsz := (sized_plain (.inl ht)).mp hdata.sized
  have hc := count_le s.store (isField d.keyType key)
  have hr := h.room
  have hne : d.sz ≠ 0 := by
    intro h0
    have hv := hz h0
    rw [ht] at hv
    cases hv
  omega

/-- An operation on a hash, or on a key that becomes one. -/
structure OnHash (store : Store) (key : Bytes) (op : WriteOperation) : Prop where
  redisKey_eq : op.redisKey = key
  valid : op.isValid = true
  type_eq : op.keyinfo.keyType = .kHash
  nonneg : 0 ≤ op.keyinfo.sz
  fresh : op.keyinfo.sz = 0 → store.lookup (.descriptor key) = none
  known : ∀ bytes, store.lookup (.descriptor key) = some bytes →
    KeyDescriptor.ofBytes bytes = .ok op.keyinfo

variable {op : WriteOperation}

theorem OnHash.bearsFields (h : OnHash store key op) : op.keyinfo.keyType.bearsFields = true := by
  rw [h.type_eq]
  rfl

theorem OnHash.congr {store' : Store} (h : OnHash store key op)
    (he : store'.lookup (.descriptor key) = store.lookup (.descriptor key)) :
    OnHash store' key op := by
  refine ⟨h.redisKey_eq, h.valid, h.type_eq, h.nonneg, ?_, ?_⟩
  · rw [he]
    exact h.fresh
  · rw [he]
    exact h.known

theorem Countable.withOperation {α : Type} {otherwise : α} {body : WriteOperation → StagingM α}
    {post : α → StagingArea → Prop} (hs : Countable n s.store)
    (hother : isOther s.store key .kHash = true → post otherwise s)
    (hbody : isOther s.store key .kHash = false → ∀ op, OnHash s.store key op →
      op.keyinfo.sz + n < 2 ^ 63 → Yields (body op) s post fault) :
    Yields (withOperation key .kHash otherwise body) s post fault := by
  rcases hl : s.store.lookup (.descriptor key) with _ | bytes
  · rw [yields_withOperation_fresh hl]
    apply hbody (isOther_of_none (descriptorOf_of_none hl))
    · exact ⟨rfl, rfl, rfl, Int.le_refl 0, fun _ => hl, fun bytes h => by rw [hl] at h; cases h⟩
    · show (0 : Int) + n < 2 ^ 63
      have := hs.room
      omega
  · obtain ⟨d, hd, hsz⟩ := hs.descriptors key bytes hl
    have hdesc : descriptorOf s.store key = some d := by
      unfold descriptorOf
      rw [hl, Option.bind_some, hd]
      rfl
    by_cases ht : d.keyType = .kHash
    · obtain ⟨hpos, hroom⟩ := hsz ht
      rw [yields_withOperation_known hl hd ht nofun]
      apply hbody (isOther_of_type hdesc ht)
      · refine ⟨rfl, rfl, ht, Int.le_of_lt hpos, fun h0 => absurd h0 (Int.ne_of_gt hpos), ?_⟩
        intro bytes' hl'
        rw [hl] at hl'
        cases hl'
        exact hd
      · exact hroom
    · unfold StateMachine.withOperation WriteOperation.start getKeyDescriptor
      rw [yields_bind, yields_bind, yields_bind, yields_lookup, hl]
      dsimp only
      rw [hd, throwing_ok, yields_pure, ofBytes_not_empty hd, if_neg nofun, yields_pure,
        if_neg (by simp [ht]), yields_pure]
      apply hother
      rw [isOther_of_some hdesc]
      exact decide_eq_true ht

/-- The old size is written again: all records stay. -/
theorem OnHash.yields_finalize_same (h : OnHash s.store key op) {post : Unit → StagingArea → Prop}
    (hpost : ∀ s', (∀ k, s'.store.lookup k = s.store.lookup k) → post () s') :
    Yields (op.finalize op.keySize false) s post fault := by
  apply quarkdb.yields_finalize_same h.valid
  · rw [h.type_eq]
    nofun
  · intro hneg
    exact absurd h.nonneg (Int.not_le.mpr hneg)
  · intro hz
    apply hpost
    intro k
    show (s.store.erase _).lookup k = _
    rw [h.redisKey_eq]
    by_cases hk : k = .descriptor key
    · rw [hk, AList.lookup_erase, h.fresh hz]
    · exact AList.lookup_erase_ne hk
  · intro _
    exact hpost s fun _ => rfl

/-- A new size is written to the descriptor, which is that of a hash then, or gone. -/
theorem OnHash.yields_finalize (h : OnHash s.store key op) {newsize : Int} (h0 : 0 ≤ newsize)
    (h1 : newsize < 2 ^ 63) {post : Unit → StagingArea → Prop}
    (hpost : ∀ s', (∀ k ≠ .descriptor key, s'.store.lookup k = s.store.lookup k) →
      (∀ bytes, s'.store.lookup (.descriptor key) = some bytes →
        ∃ d, KeyDescriptor.ofBytes bytes = .ok d ∧ d.keyType = .kHash ∧ 0 < d.sz ∧
          d.sz = newsize) → post () s') :
    Yields (op.finalize newsize false) s post fault := by
  have ht : op.keyinfo.keyType ≠ .kVersionedHash := by
    rw [h.type_eq]
    nofun
  by_cases hz : newsize = 0
  · subst hz
    rw [yields_finalize_gone h.valid ht, h.redisKey_eq]
    apply hpost
    · intro k hk
      exact AList.lookup_erase_ne hk
    · intro bytes hl
      rw [show (s.delIn (.descriptor key)).store.lookup _ = none from AList.lookup_erase _ _] at hl
      cases hl
  by_cases hsame : op.keyinfo.sz = newsize
  · rw [← hsame]
    apply (yields_finalize_kept h.valid h.nonneg (fun hs => absurd (hsame.symm.trans hs) hz) rfl).mpr
    apply hpost s fun _ _ => rfl
    intro bytes hl
    exact ⟨op.keyinfo, h.known bytes hl, h.type_eq, by omega, hsame⟩
  · obtain ⟨bytes, hb⟩ : ∃ bytes, KeyDescriptor.serialize { op.keyinfo with sz := newsize } =
        .ok bytes := by
      unfold KeyDescriptor.serialize
      rw [h.type_eq]
      exact ⟨_, rfl⟩
    rw [yields_finalize_written h.valid h0 (fun hs => absurd hs hz) (.inl hsame) hb, h.redisKey_eq]
    apply hpost
    · intro k hk
      exact AList.lookup_insert_ne hk
    · intro bytes' hl
      rw [show (s.putIn (.descriptor key) bytes).store.lookup _ = some bytes from
        AList.lookup_insert _] at hl
      cases hl
      obtain ⟨d, hd, ht', hsz, -⟩ := ofBytes_serialize hb h0 h1
      exact ⟨d, hd, ht'.trans h.type_eq, by rw [hsz]; dsimp only; omega, hsz⟩

end

/-! ## One increment -/

section

variable {n : Nat} {s : StagingArea} {key field incrby value : Bytes} {store store' : Store}
  {fault : Fault → Prop}

theorem descriptorOf_congr {key' : Bytes}
    (h : store'.lookup (.descriptor key') = store.lookup (.descriptor key')) :
    descriptorOf store' key' = descriptorOf store key' := by
  unfold descriptorOf
  rw [h]

theorem isOther_congr {key' : Bytes}
    (h : store'.lookup (.descriptor key') = store.lookup (.descriptor key')) :
    isOther store' key' .kHash = isOther store key' .kHash := by
  unfold isOther
  rw [descriptorOf_congr h]

theorem hashesOf_congr (h : ∀ k, store'.lookup k = store.lookup k) :
    hashesOf store' = hashesOf store := by
  funext key
  unfold hashesOf
  rw [isOther_congr (h _)]
  simp only [h]

theorem hashesOf_put (ho : isOther store key .kHash = false)
    (ho' : isOther store' key .kHash = false)
    (hsame : ∀ k, k ≠ .descriptor key → k ≠ .field .kHash key field →
      store'.lookup k = store.lookup k)
    (hfield : store'.lookup (.field .kHash key field) = some value) :
    hashesOf store' = (hashesOf store).put key field value := by
  funext key'
  unfold Hashes.put
  by_cases hk : key' = key
  · subst hk
    rw [Function.update_self]
    unfold hashesOf
    rw [ho, ho']
    simp only [Bool.false_eq_true, if_false, Option.map_some, Option.some.injEq]
    funext field'
    by_cases hf : field' = field
    · rw [hf, Function.update_self]
      exact hfield
    · rw [Function.update_of_ne hf]
      apply hsame
      · nofun
      · intro he
        cases he
        exact hf rfl
  · have hne : ∀ k : StoreKey, k.owner = some key' → store'.lookup k = store.lookup k := by
      intro k hown
      apply hsame
      · rintro rfl
        cases hown
        exact hk rfl
      · rintro rfl
        cases hown
        exact hk rfl
    rw [Function.update_of_ne hk]
    unfold hashesOf
    rw [isOther_congr (hne (.descriptor key') rfl)]
    simp only [hne (.field .kHash key' _) rfl]

namespace Hashes

variable {h : Hashes}

/-- What fails has no number in its result that it did not read; what succeeds leaves none. -/
theorem remnant_of_stored (hs : (h.stored key field incrby).isSome) :
    h.remnant key field incrby = 0 := by
  unfold stored operands at hs
  unfold remnant
  rcases hp : parseInt64 incrby with _ | incr
  · rfl
  rcases hf : h key with _ | fields
  · rfl
  rw [hp, hf] at hs
  simp only [Option.bind_some, Option.bind_eq_bind] at hs ⊢
  rcases hv : fields field with _ | value
  · rfl
  rw [hv] at hs
  dsimp only at hs ⊢
  rcases ho : parseInt64 value with _ | old
  · rw [ho] at hs
    cases hs
  · rfl

theorem increment_of_stored {m : Int} (hs : h.stored key field incrby = some m) :
    h.increment key field incrby = h.put key field (decimal m) := by
  unfold increment
  rw [hs]

theorem increment_of_none (hs : h.stored key field incrby = none) :
    h.increment key field incrby = h := by
  unfold increment
  rw [hs]

/-- What is left of the arguments is no triple. -/
theorem of_short (h : Hashes) {args : List Bytes}
    (hne : ∀ key field incrby rest, args = key :: field :: incrby :: rest → False) :
    h.incrementAll args = h ∧ h.storedBy args = [] ∧ h.remnants args = [] := by
  rcases args with _ | ⟨key, _ | ⟨field, _ | ⟨incrby, rest⟩⟩⟩
  · exact ⟨rfl, rfl, rfl⟩
  · exact ⟨rfl, rfl, rfl⟩
  · exact ⟨rfl, rfl, rfl⟩
  · exact (hne _ _ _ _ rfl).elim

end Hashes

/-- What an increment does. -/
structure Incremented (n : Nat) (s : StagingArea) (key field incrby : Bytes) (r : Status × Int)
    (s' : StagingArea) : Prop where
  countable : Countable n s'.store
  hashes : hashesOf s'.store = (hashesOf s.store).increment key field incrby
  ok : (hashesOf s.store).stored key field incrby ≠ none → r.1 = .OK
  error : (hashesOf s.store).stored key field incrby = none →
    r.1.ok = false ∧ isError (fromStatus r.1) = true ∧ ∀ k, s'.store.lookup k = s.store.lookup k
  result : r.2 = ((hashesOf s.store).stored key field incrby).getD
    ((hashesOf s.store).remnant key field incrby)

theorem Countable.congr (hs : Countable n store) (h : ∀ k, store'.lookup k = store.lookup k) :
    Countable n store' := by
  refine ⟨hs.room, fun key bytes hl => ?_⟩
  rw [h] at hl
  exact hs.descriptors key bytes hl

/-- An increment that fails. -/
theorem Incremented.failed {message : String} {r : Status × Int} {s' : StagingArea}
    (hs : Countable n s.store) (hn : (hashesOf s.store).stored key field incrby = none)
    (hr : r = (malformed message, (hashesOf s.store).remnant key field incrby))
    (hsame : ∀ k, s'.store.lookup k = s.store.lookup k) :
    Incremented n s key field incrby r s' := by
  subst hr
  refine ⟨hs.congr hsame, ?_, fun h => absurd hn h, fun _ => ⟨rfl, rfl, hsame⟩, ?_⟩
  · rw [Hashes.increment_of_none hn]
    exact hashesOf_congr hsame
  · rw [hn]
    rfl

/-- The sum is written to the field, which is counted if it is new. -/
theorem OnHash.yields_store {op : WriteOperation} (hop : OnHash s.store key op)
    (hs : Countable (n + 1) s.store) (ho : isOther s.store key .kHash = false)
    (hroom : op.keyinfo.sz + (n + 1 : Nat) < 2 ^ 63) {m : Int} {known : Bool}
    (hm : (hashesOf s.store).stored key field incrby = some m) :
    Yields (do
      op.writeField field (decimal m)
      op.finalize (sum64 op.keySize (if known then 0 else 1)) false
      return ((.OK, m) : Status × Int)) s (Incremented n s key field incrby) fault := by
  have h0 := hop.nonneg
  have hop' : OnHash (s.putIn (.field .kHash key field) (decimal m)).store key op :=
    hop.congr (AList.lookup_insert_ne nofun)
  have hsize : sum64 op.keySize (if known then 0 else 1) =
      op.keyinfo.sz + if known then 0 else 1 := by
    unfold WriteOperation.keySize sum64
    apply signed_of_fits <;> split <;> omega
  rw [yields_bind, WriteOperation.writeField_eq hop.valid hop.bearsFields, hop.type_eq,
    hop.redisKey_eq, yields_put, yields_bind, hsize]
  apply hop'.yields_finalize
  · split <;> omega
  · split <;> omega
  intro s' hsame hdesc
  have hother : ∀ k, k ≠ .descriptor key → k ≠ .field .kHash key field →
      s'.store.lookup k = s.store.lookup k := by
    intro k hk hf
    rw [hsame k hk]
    exact AList.lookup_insert_ne hf
  have hread : ∀ bytes, s'.store.lookup (.descriptor key) = some bytes →
      ∃ d, KeyDescriptor.ofBytes bytes = .ok d ∧ d.keyType = .kHash ∧ 0 < d.sz ∧
        d.sz + n < 2 ^ 63 := by
    intro bytes hl
    obtain ⟨d, hd, ht, hpos, hsz⟩ := hdesc bytes hl
    refine ⟨d, hd, ht, hpos, ?_⟩
    rw [hsz]
    split <;> omega
  refine ⟨⟨by have := hs.room; omega, ?_⟩, ?_, fun _ => rfl, fun hn => ?_, ?_⟩
  · intro key' bytes hl
    by_cases hk : key' = key
    · rw [hk] at hl
      obtain ⟨d, hd, -, hsz⟩ := hread bytes hl
      exact ⟨d, hd, fun _ => hsz⟩
    · rw [hother (.descriptor key') (by simp [hk]) (by nofun)] at hl
      exact (hs.mono (Nat.le_succ n)).descriptors key' bytes hl
  · rw [Hashes.increment_of_stored hm]
    apply hashesOf_put ho _ hother
    · rw [hsame (.field .kHash key field) (by nofun)]
      exact AList.lookup_insert _
    · rcases hl : s'.store.lookup (.descriptor key) with _ | bytes
      · exact isOther_of_none (descriptorOf_of_none hl)
      · obtain ⟨d, hd, ht, -⟩ := hread bytes hl
        refine isOther_of_type ?_ ht
        unfold descriptorOf
        rw [hl, Option.bind_some, hd]
        rfl
  · rw [hm] at hn
    cases hn
  · rw [hm]
    rfl

/-- An increment stores a sum, or it fails and changes nothing. -/
theorem yields_hincrby (hs : Countable (n + 1) s.store) :
    Yields (hincrby key field incrby) s (Incremented n s key field incrby) fault := by
  have hs' : Countable n s.store := hs.mono (Nat.le_succ n)
  unfold hincrby StateMachine.increment
  rcases hp : parseInt64 incrby with _ | incr
  · apply Incremented.failed hs' (by simp [Hashes.stored, Hashes.operands, hp])
    · simp only [Hashes.remnant, hp]
      rfl
    · exact fun _ => rfl
  apply hs.withOperation
  · intro ho
    have hnone : hashesOf s.store key = none := by
      unfold hashesOf
      rw [ho]
      rfl
    apply Incremented.failed hs' (by simp [Hashes.stored, Hashes.operands, hnone])
    · simp only [Hashes.remnant, hp, hnone, Option.bind_none]
      rfl
    · exact fun _ => rfl
  intro ho op hop hroom
  have hsome : hashesOf s.store key = some fun field => s.store.lookup (.field .kHash key field) := by
    unfold hashesOf
    rw [ho]
    rfl
  rw [yields_bind, WriteOperation.getField_eq hop.valid hop.bearsFields, hop.type_eq,
    hop.redisKey_eq, yields_lookup]
  rcases hv : s.store.lookup (.field .kHash key field) with _ | value <;> rw [hv] <;> dsimp only
  · apply hop.yields_store hs ho hroom
    simp [Hashes.stored, Hashes.operands, hp, hsome, hv]
  rcases ho' : parseInt64 value with _ | old <;> dsimp only
  · rw [yields_bind]
    apply hop.yields_finalize_same
    intro s' hsame
    apply Incremented.failed hs' (by simp [Hashes.stored, Hashes.operands, hp, hsome, hv, ho'])
    · simp only [Hashes.remnant, hp, hsome, Option.bind_some, hv, ho']
      rfl
    · exact hsame
  · apply hop.yields_store hs ho hroom
    simp [Hashes.stored, Hashes.operands, hp, hsome, hv, ho']

end

/-! ## Sums of increments -/

section

variable {s : StagingArea} {fault : Fault → Prop}

/-- The loop replies with all that is stored and all that is left over, in 64 bits. -/
theorem yields_hincrbyLoop {args : List Bytes} (hs : Countable args.length s.store) :
    Yields (hincrbyLoop args) s (fun ret s' =>
      hashesOf s'.store = (hashesOf s.store).incrementAll args ∧
        ret = signed (((hashesOf s.store).storedBy args).sum +
          ((hashesOf s.store).remnants args).sum)) fault := by
  induction args using hincrbyLoop.induct generalizing s with
  | case1 key field incrby rest ih =>
    have hs' : Countable (rest.length + 1) s.store := hs.mono (by simp only [List.length_cons]; omega)
    unfold hincrbyLoop
    rw [yields_bind]
    refine (yields_hincrby hs').mono fun r s1 h1 => ?_
    rw [yields_bind]
    refine (ih h1.countable).mono fun ret s2 h2 => ?_
    obtain ⟨hhashes, hret⟩ := h2
    rw [h1.hashes] at hhashes hret
    rw [yields_pure]
    refine ⟨hhashes, ?_⟩
    unfold sum64 Hashes.storedBy Hashes.remnants
    rw [hret, signed_add_signed, h1.result, List.sum_append, List.sum_cons]
    congr 1
    rcases hst : (hashesOf s.store).stored key field incrby with _ | m
    · simp only [Option.getD_none, Option.toList_none, List.sum_nil]
      omega
    · rw [Hashes.remnant_of_stored (by rw [hst]; rfl)]
      simp only [Option.getD_some, Option.toList_some, List.sum_singleton]
      omega
  | case2 args hne =>
    obtain ⟨hall, hstored, hleft⟩ := (hashesOf s.store).of_short hne
    unfold hincrbyLoop
    rw [hall, hstored, hleft]
    split
    · exact (hne _ _ _ _ rfl).elim
    · exact ⟨rfl, rfl⟩

end

section

variable (doubles : Doubles) {s : StagingArea} {request : RedisRequest}

theorem integer_injective {a b : Int} (h : integer a = integer b) : a = b := by
  unfold integer at h
  rw [List.append_assoc, List.append_assoc, List.append_cancel_left_eq,
    List.append_cancel_right_eq] at h
  exact decimal_injective h

/-- HINCRBY is exact unless the sum of two numbers does not fit in 64 bits. -/
theorem hincrby_exact_iff {key field incrby : Bytes} (hs : Countable 1 s.store)
    (hc : getCommand request = .HINCRBY) (ht : request.tail = [key, field, incrby]) :
    HincrbyExact doubles s request key field incrby ↔
      ∀ old incr, (hashesOf s.store).operands key field incrby = some (old, incr) →
        InWord (old + incr) := by
  have hrun : Yields (dispatchCommand doubles request) s
      (fun reply s' => ∃ r, reply = replyWith r integer ∧ Incremented 0 s key field incrby r s')
      fun _ => False := by
    unfold dispatchCommand
    rw [hc, ht]
    dsimp only
    rw [yields_reply]
    exact (yields_hincrby hs).mono fun r s' h => ⟨r, rfl, h⟩
  obtain ⟨_, s', hd, r, rfl, h⟩ := hrun.exists_ok
  constructor
  · rintro ⟨reply, s'', hd', hor⟩ old incr hop
    rw [hd] at hd'
    cases hd'
    rcases hor with ⟨old', incr', hop', hw, -⟩ | ⟨he, -⟩
    · rw [hop] at hop'
      cases hop'
      exact hw
    · have hst : (hashesOf s.store).stored key field incrby ≠ none := by
        unfold Hashes.stored
        rw [hop]
        nofun
      rw [isError_replyWith isError_integer (h.ok hst)] at he
      cases he
  · intro hfits
    refine ⟨_, s', hd, ?_⟩
    rcases hop : (hashesOf s.store).operands key field incrby with _ | ⟨old, incr⟩
    · have hst : (hashesOf s.store).stored key field incrby = none := by
        unfold Hashes.stored
        rw [hop]
        rfl
      obtain ⟨hok, he, hsame⟩ := h.error hst
      refine .inr ⟨?_, hsame⟩
      unfold replyWith
      rw [hok]
      exact he
    · have hw := hfits old incr hop
      have hst : (hashesOf s.store).stored key field incrby = some (old + incr) := by
        unfold Hashes.stored
        rw [hop, Option.map_some, signed_of_fits hw.1 hw.2]
      have hr : r = (.OK, old + incr) := by
        apply Prod.ext
        · exact h.ok (by rw [hst]; nofun)
        · rw [h.result, hst]
          rfl
      refine .inl ⟨old, incr, rfl, hw, ?_, ?_⟩
      · rw [hr]
        rfl
      · rw [h.hashes, Hashes.increment_of_stored hst]

/-- HINCRBYMULTI is exact unless the sum of what is stored does not fit in 64 bits, or what was
read of values that are no numbers does not cancel out. -/
theorem hincrbymulti_exact_iff {args : List Bytes} (hs : Countable args.length s.store)
    (hc : getCommand request = .HINCRBYMULTI) (ht : request.tail = args)
    (hlen : 3 ≤ args.length ∧ args.length % 3 = 0) :
    HincrbymultiExact doubles s request args ↔
      InWord ((hashesOf s.store).storedBy args).sum ∧
        2 ^ 64 ∣ ((hashesOf s.store).remnants args).sum := by
  have hrun : Yields (dispatchCommand doubles request) s (fun reply s' =>
      hashesOf s'.store = (hashesOf s.store).incrementAll args ∧
        reply = integer (signed (((hashesOf s.store).storedBy args).sum +
          ((hashesOf s.store).remnants args).sum))) fun _ => False := by
    unfold dispatchCommand
    rw [hc, ht]
    dsimp only
    rw [if_neg (by omega), yields_reply]
    refine (yields_hincrbyLoop hs).mono fun ret s' h => ⟨h.1, ?_⟩
    rw [h.2]
  obtain ⟨_, s', hd, hall, rfl⟩ := hrun.exists_ok
  rw [← signed_add_eq_left_iff]
  constructor
  · rintro ⟨reply, s'', hd', -, hreply⟩
    rw [hd] at hd'
    cases hd'
    exact integer_injective hreply
  · intro he
    exact ⟨_, s', hd, hall, by rw [he]⟩

end

/-- A hash `h` with one field `f`. -/
def holding (value : Bytes) : StagingArea where
  store := AList.insert (.descriptor (ascii "h")) (KeyType.kHash.toChar :: bigInt 1)
    (AList.insert (.field .kHash (ascii "h") (ascii "f")) value ∅)
  expirationCache := []

theorem countable_holding (value : Bytes) : Countable 9 (holding value).store := by
  refine ⟨by decide, fun key bytes hl => ?_⟩
  by_cases hk : key = ascii "h"
  · rw [hk, show (holding value).store.lookup (.descriptor (ascii "h")) =
      some (KeyType.kHash.toChar :: bigInt 1) from AList.lookup_insert _] at hl
    cases hl
    exact ⟨{ keyType := .kHash, sz := 1 }, by decide +kernel, fun _ => by decide⟩
  · unfold holding at hl
    rw [AList.lookup_insert_ne (by simpa using hk), AList.lookup_insert_ne (by nofun),
      AList.lookup_empty] at hl
    cases hl

end quarkdb
