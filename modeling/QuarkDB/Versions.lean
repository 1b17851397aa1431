-- The versions of a versioned hash. A batch is meant to count as one version, whatever it
-- does to the hash, and its first command on the hash decides if it does.
import QuarkDB.Batches
import QuarkDB.Frames
import QuarkDB.IndexedCommands

namespace quarkdb

open Endian StateMachine StagingArea Outcome RedisDispatcher Formatter

/-! ## Commands on a versioned hash -/

/-- What a command does to a versioned hash: to store one of its fields, to delete some of
them, or to remove it. -/
inductive HashEvent
  | set (field : Bytes)
  | del (fields : List Bytes)
  | wipe
  deriving Repr, DecidableEq

namespace HashEvent

/-- The command stores or removes a field. -/
def changes (has : Bytes → Bool) : HashEvent → Bool
  | .set _ => true
  | .del fields => fields.any has
  | .wipe => false

def fieldsAfter (has : Bytes → Bool) : HashEvent → Bytes → Bool
  | .set field, other => has other || other = field
  | .del fields, other => has other && other ∉ fields
  | .wipe, _ => false

end HashEvent

/-- What a batch has made of a versioned hash so far: its version, unless it is missing,
its fields, if the batch has written its descriptor, and the revision that is handed to
the publisher, or zero. -/
structure HashState where
  version : Option UInt64
  has : Bytes → Bool
  written : Bool
  revision : UInt64
  absent : version = none → written = false ∧ ∀ field, has field = false
  counted : written = true → version = some revision

namespace HashState

/-- The version that a command replies. -/
def number (t : HashState) (e : HashEvent) : UInt64 :=
  if e.changes t.has = true ∧ t.written = false then t.version.getD 0 + 1 else t.version.getD 0

def after (t : HashState) : HashEvent → HashState
  | .wipe => {
      version := none
      has := fun _ => false
      written := false
      revision := t.revision
      absent := fun _ => ⟨rfl, fun _ => rfl⟩
      counted := nofun }
  | e => {
      version := some (t.number e)
      has := e.fieldsAfter t.has
      written := true
      revision := t.number e
      absent := nofun
      counted := fun _ => rfl }

/-- `setRevisionNumber` lets the command through. -/
def Accepts (t : HashState) (e : HashEvent) : Prop := t.revision = 0 ∨ t.revision = t.number e

instance (t : HashState) (e : HashEvent) : Decidable (t.Accepts e) :=
  inferInstanceAs (Decidable (_ ∨ _))

def run (t : HashState) (events : List HashEvent) : HashState := events.foldl after t

def Accepted : HashState → List HashEvent → Prop
  | _, [] => True
  | t, e :: rest => (e ≠ .wipe → t.Accepts e) ∧ Accepted (t.after e) rest

end HashState

/-- The versions that the first command after the start, and the first one after each
removal, comes to. -/
def openings : UInt64 → (Bytes → Bool) → Bool → List HashEvent → List UInt64
  | _, _, _, [] => []
  | _, _, _, .wipe :: rest => openings 0 (fun _ => false) false rest
  | version, has, true, _ :: rest => openings version has true rest
  | version, has, false, e :: rest =>
    (if e.changes has then version + 1 else version) :: openings version has true rest

/-- Of two versions, both are the same or the earlier one is zero. -/
def Agree (versions : List UInt64) : Prop := versions.Pairwise fun v v' => v = 0 ∨ v' = v

instance (versions : List UInt64) : Decidable (Agree versions) :=
  inferInstanceAs (Decidable (versions.Pairwise _))

/-! ## One version after the other -/

namespace HashState

variable {t : HashState} {e : HashEvent} {events : List HashEvent}

theorem after_of_ne (he : e ≠ .wipe) :
    (t.after e).version = some (t.number e) ∧ (t.after e).has = e.fieldsAfter t.has ∧
      (t.after e).written = true ∧ (t.after e).revision = t.number e := by
  cases e with
  | wipe => exact absurd rfl he
  | set field => exact ⟨rfl, rfl, rfl, rfl⟩
  | del fields => exact ⟨rfl, rfl, rfl, rfl⟩

/-- Once the descriptor is in the batch, the version stays. -/
theorem number_of_written (hw : t.written = true) : t.number e = t.revision := by
  unfold number
  rw [hw, if_neg (by simp), t.counted hw]
  rfl

@[simp]
theorem run_append (t : HashState) (events later : List HashEvent) :
    t.run (events ++ later) = (t.run events).run later := by
  unfold run
  rw [List.foldl_append]

theorem accepted_append (t : HashState) (events later : List HashEvent) :
    t.Accepted (events ++ later) ↔ t.Accepted events ∧ (t.run events).Accepted later := by
  induction events generalizing t with
  | nil => simp [Accepted, run]
  | cons e rest ih =>
    show (_ ∧ (t.after e).Accepted (rest ++ later)) ↔ (_ ∧ (t.after e).Accepted rest) ∧ _
    rw [ih (t.after e), and_assoc]
    rfl

end HashState

/-- Nothing opens until the next removal. -/
theorem openings_opened (version version' : UInt64) (has has' : Bytes → Bool)
    (events : List HashEvent) :
    openings version has true events = openings version' has' true events := by
  induction events with
  | nil => rfl
  | cons e rest ih => cases e <;> first | rfl | exact ih

namespace HashState

/-- What opens from a state on. -/
def opens (t : HashState) (events : List HashEvent) : List UInt64 :=
  openings (t.version.getD 0) t.has t.written events

variable {t : HashState} {e : HashEvent} {events : List HashEvent}

theorem opens_cons (t : HashState) (e : HashEvent) (rest : List HashEvent) :
    t.opens (e :: rest) = t.opens [e] ++ (t.after e).opens rest := by
  cases e with
  | wipe => rfl
  | set field =>
    unfold opens
    rcases hw : t.written
    · exact congrArg _ (openings_opened _ _ _ _ rest)
    · exact openings_opened _ _ _ _ rest
  | del fields =>
    unfold opens
    rcases hw : t.written
    · exact congrArg _ (openings_opened _ _ _ _ rest)
    · exact openings_opened _ _ _ _ rest

theorem opens_append (t : HashState) (events later : List HashEvent) :
    t.opens (events ++ later) = t.opens events ++ (t.run events).opens later := by
  induction events generalizing t with
  | nil => rfl
  | cons e rest ih =>
    rw [List.cons_append, opens_cons, ih, opens_cons t e rest, List.append_assoc]
    rfl

theorem opens_one (he : e ≠ .wipe) (hw : t.written = false) : t.opens [e] = [t.number e] := by
  unfold opens number
  rw [hw]
  cases e with
  | wipe => exact absurd rfl he
  | set field => simp [openings]
  | del fields => simp [openings]

theorem opens_written (he : e = .wipe ∨ t.written = true) : t.opens [e] = [] := by
  unfold opens
  rcases he with rfl | hw
  · rfl
  · rw [hw]
    cases e <;> rfl

/-- What the revision tracker knows of the versions that opened: they agree, and it has the
one that is not zero. -/
structure Tracks (t : HashState) (versions : List UInt64) : Prop where
  agree : Agree versions
  known : ∀ v ∈ versions, v = 0 ∨ v = t.revision
  opened : t.revision = 0 ∨ t.revision ∈ versions

theorem agree_snoc {versions : List UInt64} {v : UInt64} :
    Agree (versions ++ [v]) ↔ Agree versions ∧ ∀ w ∈ versions, w = 0 ∨ v = w := by
  unfold Agree
  rw [List.pairwise_append]
  simp

/-- A version may open when it agrees with those before. -/
theorem Tracks.accepts_iff {versions : List UInt64} (h : t.Tracks versions) :
    t.Accepts e ↔ Agree (versions ++ [t.number e]) := by
  rw [agree_snoc]
  unfold Accepts
  constructor
  · intro ha
    refine ⟨h.agree, fun w hw => ?_⟩
    rcases h.known w hw with h0 | hr
    · exact .inl h0
    · rw [← hr] at ha
      exact ha.imp id Eq.symm
  · rintro ⟨-, ha⟩
    rcases h.opened with h0 | hm
    · exact .inl h0
    · exact (ha _ hm).imp id Eq.symm

theorem Tracks.after {versions : List UInt64} (h : t.Tracks versions)
    (ha : e ≠ .wipe → t.Accepts e) : (t.after e).Tracks (versions ++ t.opens [e]) := by
  by_cases he : e = .wipe
  · rw [opens_written (.inl he), List.append_nil]
    subst he
    exact ⟨h.agree, h.known, h.opened⟩
  obtain ⟨-, -, -, hr⟩ := after_of_ne (t := t) he
  by_cases hw : t.written = true
  · rw [opens_written (.inr hw), List.append_nil]
    rw [number_of_written hw] at hr
    refine ⟨h.agree, ?_, ?_⟩ <;> rw [hr]
    · exact h.known
    · exact h.opened
  rw [opens_one he (by simpa using hw)]
  refine ⟨h.accepts_iff.mp (ha he), fun v hv => ?_, .inr ?_⟩ <;> rw [hr]
  · rw [List.mem_append, List.mem_singleton] at hv
    rcases hv with hv | hv
    · rcases ha he with h0 | hn
      · rcases h.known v hv with h1 | h1
        · exact .inl h1
        · exact .inl (h1.trans h0)
      · rw [← hn]
        exact h.known v hv
    · exact .inr hv
  · exact List.mem_append_right _ List.mem_cons_self

/-- The versions that opened in a batch that ran agree. -/
theorem tracks_run (t : HashState) (hr : t.revision = 0) (ha : t.Accepted events) :
    (t.run events).Tracks (t.opens events) := by
  induction events using List.reverseRecOn with
  | nil => exact ⟨List.Pairwise.nil, nofun, .inl hr⟩
  | append_singleton events e ih =>
    rw [accepted_append] at ha
    rw [run_append, opens_append]
    exact (ih ha.1).after ha.2.1

/-- The next command is let through when its version agrees with those before. -/
theorem accepts_iff_agree (t : HashState) (hr : t.revision = 0) (ha : t.Accepted events)
    (he : e ≠ .wipe) : (t.run events).Accepts e ↔ Agree (t.opens (events ++ [e])) := by
  have h := tracks_run t hr ha
  rw [opens_append]
  by_cases hw : (t.run events).written = true
  · rw [opens_written (.inr hw), List.append_nil]
    refine ⟨fun _ => h.agree, fun _ => .inr ?_⟩
    rw [number_of_written hw]
  · rw [opens_one he (by simpa using hw)]
    exact h.accepts_iff

/-- As long as the hash is not removed, all commands reply the version of the first. -/
theorem run_of_no_wipe (t : HashState) (hw : t.written = true) (hn : ∀ e ∈ events, e ≠ .wipe) :
    (t.run events).version = some t.revision ∧ (t.run events).revision = t.revision := by
  induction events generalizing t with
  | nil => exact ⟨t.counted hw, rfl⟩
  | cons e rest ih =>
    obtain ⟨-, -, hw', hr⟩ := after_of_ne (t := t) (hn e List.mem_cons_self)
    rw [number_of_written hw] at hr
    have := ih (t.after e) hw' fun e' he => hn e' (List.mem_cons_of_mem e he)
    rwa [hr] at this

end HashState

/-! ## What a staging area shows of it -/

/-- The version of a versioned hash in a store, unless it is missing. -/
def versionOf (store : Store) (key : Bytes) : Option UInt64 :=
  (store.lookup (.descriptor key)).bind fun bytes =>
    (KeyDescriptor.ofBytes bytes).toOption.map KeyDescriptor.startIndex

def hasField (store : Store) (key field : Bytes) : Bool :=
  (store.lookup (.field .kVersionedHash key field)).isSome

/-- The key is a versioned hash, or nothing is there of one. -/
def IsVersionedHash (store : Store) (key : Bytes) : Prop :=
  match store.lookup (.descriptor key) with
  | none => ∀ field, hasField store key field = false
  | some bytes => ∃ d, KeyDescriptor.ofBytes bytes = .ok d ∧ d.keyType = .kVersionedHash

theorem IsVersionedHash.cases {store : Store} {key : Bytes} (h : IsVersionedHash store key) :
    (store.lookup (.descriptor key) = none ∧ versionOf store key = none ∧
      ∀ field, hasField store key field = false) ∨
    ∃ bytes d, store.lookup (.descriptor key) = some bytes ∧ KeyDescriptor.ofBytes bytes = .ok d ∧
      d.keyType = .kVersionedHash ∧ versionOf store key = some d.startIndex := by
  unfold IsVersionedHash at h
  unfold versionOf
  split at h
  · rename_i hl
    rw [hl]
    exact .inl ⟨rfl, rfl, h⟩
  · rename_i bytes hl
    obtain ⟨d, hd, ht⟩ := h
    rw [hl, Option.bind_some, hd]
    exact .inr ⟨bytes, d, rfl, hd, ht, rfl⟩

/-- Before a batch. -/
def HashState.initial {store : Store} {key : Bytes} (h : IsVersionedHash store key) :
    HashState where
  version := versionOf store key
  has := hasField store key
  written := false
  revision := 0
  absent := by
    intro hn
    rcases h.cases with ⟨-, -, hf⟩ | ⟨bytes, d, -, -, -, hv⟩
    · exact ⟨rfl, hf⟩
    · rw [hn] at hv
      cases hv
  counted := nofun

/-- The revision that a batch hands to the publisher. -/
def revisionOf (s : StagingArea) (key : Bytes) : UInt64 :=
  ((s.revisionTracker.lookup key).getD {}).currentRevision

/-- The staging area has of the hash what the state says. -/
structure Shows (key : Bytes) (t : HashState) (s : StagingArea) : Prop where
  missing : t.version = none → s.store.lookup (.descriptor key) = none
  known : ∀ version, t.version = some version → ∃ bytes d,
    s.store.lookup (.descriptor key) = some bytes ∧ KeyDescriptor.ofBytes bytes = .ok d ∧
    d.keyType = .kVersionedHash ∧ d.startIndex = version
  fields : ∀ field, hasField s.store key field = t.has field
  written : (s.batch.lookup (.descriptor key)).isSome = t.written
  revision : revisionOf s key = t.revision

section

variable {key : Bytes} {t : HashState} {s s' : StagingArea}

theorem shows_initial {m : Machine} (h : IsVersionedHash m.store key) :
    Shows key (.initial h) (stage m) := by
  refine ⟨fun hn => ?_, fun version hv => ?_, fun _ => rfl, rfl, rfl⟩
  · change versionOf m.store key = none at hn
    rcases h.cases with ⟨hl, -, -⟩ | ⟨bytes, d, -, -, -, hd⟩
    · exact hl
    · rw [hn] at hd
      cases hd
  · change versionOf m.store key = some version at hv
    rcases h.cases with ⟨-, hd, -⟩ | ⟨bytes, d, hl, ho, ht, hd⟩
    · rw [hv] at hd
      cases hd
    · rw [hv] at hd
      cases hd
      exact ⟨bytes, d, hl, ho, ht, rfl⟩

theorem Shows.version_eq (h : Shows key t s) : versionOf s.store key = t.version := by
  unfold versionOf
  rcases hv : t.version with _ | version
  · rw [h.missing hv]
    rfl
  · obtain ⟨bytes, d, hl, hd, -, rfl⟩ := h.known version hv
    rw [hl, Option.bind_some, hd]
    rfl

theorem Shows.congr (h : Shows key t s)
    (hd : s'.store.lookup (.descriptor key) = s.store.lookup (.descriptor key))
    (hf : ∀ field, hasField s'.store key field = hasField s.store key field)
    (hb : s'.batch.lookup (.descriptor key) = s.batch.lookup (.descriptor key))
    (hr : s'.revisionTracker.lookup key = s.revisionTracker.lookup key) : Shows key t s' := by
  refine ⟨fun hn => ?_, fun version hv => ?_, fun field => ?_, ?_, ?_⟩
  · rw [hd]
    exact h.missing hn
  · rw [hd]
    exact h.known version hv
  · rw [hf]
    exact h.fields field
  · rw [hb]
    exact h.written
  · unfold revisionOf
    rw [hr]
    exact h.revision

variable {k : StoreKey}

theorem Shows.putIn (h : Shows key t s) (hd : k ≠ .descriptor key)
    (hf : ∀ field, k ≠ .field .kVersionedHash key field) (value : Bytes) :
    Shows key t (s.putIn k value) := by
  refine h.congr (AList.lookup_insert_ne hd.symm) (fun field => ?_)
    (AList.lookup_insert_ne hd.symm) rfl
  exact congrArg Option.isSome (AList.lookup_insert_ne (hf field).symm)

theorem Shows.delIn (h : Shows key t s) (hd : k ≠ .descriptor key)
    (hf : ∀ field, k ≠ .field .kVersionedHash key field) : Shows key t (s.delIn k) := by
  refine h.congr (AList.lookup_erase_ne hd.symm) (fun field => ?_)
    (AList.lookup_erase_ne hd.symm) rfl
  exact congrArg Option.isSome (AList.lookup_erase_ne (hf field).symm)

/-- To delete a descriptor that is missing changes nothing. -/
theorem Shows.forget (h : Shows key t s) (hn : t.version = none) :
    Shows key t (s.delIn (.descriptor key)) := by
  have hb : s.batch.lookup (.descriptor key) = none := by
    have hw := h.written
    rw [(t.absent hn).1] at hw
    exact Option.not_isSome_iff_eq_none.mp (by rw [hw]; nofun)
  refine h.congr ?_ (fun field => ?_) ?_ rfl
  · rw [h.missing hn]
    exact AList.lookup_erase _ _
  · exact congrArg Option.isSome (AList.lookup_erase_ne (by nofun))
  · rw [hb]
    exact AList.lookup_erase _ _

theorem ne_of_owner {k' : StoreKey} {key' : Bytes} (hk : k.owner = some key')
    (hk' : k'.owner = some key) (hne : key' ≠ key) : k ≠ k' := by
  rintro rfl
  rw [hk] at hk'
  exact hne (Option.some.inj hk')

theorem tolerates_shows {key' : Bytes} (hne : key' ≠ key) (type : KeyType) :
    Tolerates (Shows key t) key' type := by
  refine ⟨fun s k value ho _ h => ?_, fun s k ho _ h => ?_, fun s d bytes _ _ h => ?_,
    fun s h => ?_, fun s revision h => ?_⟩
  · exact h.putIn (ne_of_owner ho rfl hne) (fun _ => ne_of_owner ho rfl hne) value
  · exact h.delIn (ne_of_owner ho rfl hne) fun _ => ne_of_owner ho rfl hne
  · exact h.putIn (ne_of_owner rfl rfl hne) (fun _ => ne_of_owner rfl rfl hne) bytes
  · exact h.delIn (ne_of_owner rfl rfl hne) fun _ => ne_of_owner rfl rfl hne
  · exact h.congr rfl (fun _ => rfl) rfl (AList.lookup_insert_ne hne.symm)

theorem aloof_shows : Aloof (Shows key t) := by
  refine ⟨fun s cache h => ?_, fun s value h => h.putIn (by nofun) (by nofun) value,
    fun key' s h hfit => ?_⟩
  · exact h.congr rfl (fun _ => rfl) rfl rfl
  by_cases hne : key' = key
  · subst hne
    rcases hv : t.version with _ | version
    · refine ⟨fun s k ho ht h => h.delIn ?_ ?_, fun s h => h.forget hv⟩
      · rintro rfl
        cases ht
      · rintro field rfl
        cases ht
    · obtain ⟨bytes, d, hl, hd, ht, -⟩ := h.known version hv
      have := hfit bytes d hl hd
      rw [ht] at this
      cases this
  · exact (tolerates_shows hne .kLease).loses

end

/-! ## Commands -/

section

variable {key : Bytes} {t : HashState} {e : HashEvent} {s s' : StagingArea}
  {fault : Fault → Prop} {op : WriteOperation}

theorem yields_versioned {α : Type} (h : Shows key t s) {otherwise : α}
    {body : WriteOperation → StagingM α} {post : α → StagingArea → Prop}
    (hbody : ∀ op, op.redisKey = key → op.isValid = true →
      op.keyinfo.keyType = .kVersionedHash → op.keyinfo.startIndex = t.version.getD 0 →
      Yields (body op) s post fault) :
    Yields (withOperation key .kVersionedHash otherwise body) s post fault := by
  rcases hv : t.version with _ | version <;> rw [hv] at hbody
  · rw [yields_withOperation_fresh (h.missing hv)]
    exact hbody _ rfl rfl rfl rfl
  · obtain ⟨bytes, d, hl, hd, ht, hi⟩ := h.known version hv
    rw [yields_withOperation_known hl hd ht nofun]
    exact hbody _ rfl rfl ht hi

theorem yields_nextVersion (changed : Bool) {post : UInt64 → StagingArea → Prop} :
    Yields (nextVersion op changed) s post fault ↔
      post (if changed = true ∧ (s.batch.lookup (.descriptor op.redisKey)).isSome = false
        then op.keyinfo.startIndex + 1 else op.keyinfo.startIndex) s := by
  unfold nextVersion WriteOperation.descriptorModifiedAlreadyInWriteBatch inWriteBatch
  rw [yields_bind, yields_bind, yields_get, yields_pure]
  have hnot : ∀ b : Bool, (!b) = true ↔ b = false := by decide
  simp only [hnot]
  split <;> exact Iff.rfl

/-- The first number that is not zero stays. -/
theorem yields_setRevisionNumber (rev : UInt64) :
    Yields (setRevisionNumber key rev) s
      (fun _ s' => (revisionOf s key = 0 ∨ revisionOf s key = rev) ∧ revisionOf s' key = rev ∧
        s'.store = s.store ∧ s'.batch = s.batch)
      fun fault => fault = .assertion "currentRevision == rev" ∧
        ¬(revisionOf s key = 0 ∨ revisionOf s key = rev) := by
  unfold setRevisionNumber
  rw [yields_bind, yields_get]
  change Yields (if revisionOf s key ≠ 0 then
      assertThat (revisionOf s key = rev) "currentRevision == rev" else _) _ _ _
  split
  · rename_i h0
    by_cases hr : revisionOf s key = rev
    · rw [show decide _ = true from decide_eq_true hr, assertThat_true, yields_pure]
      exact ⟨.inr hr, hr, rfl, rfl⟩
    · rw [show decide _ = false from decide_eq_false hr]
      exact ⟨rfl, fun h => h.elim h0 hr⟩
  · rename_i h0
    refine ⟨.inl (not_not.mp h0), ?_, rfl, rfl⟩
    unfold revisionOf
    rw [AList.lookup_insert]
    rfl

theorem yields_addUpdates (updates : List (Bytes × Bytes)) {post : Unit → StagingArea → Prop}
    (h : ∀ s', revisionOf s' key = revisionOf s key → s'.store = s.store → s'.batch = s.batch →
      post () s') : Yields (addUpdates key updates) s post fault := by
  unfold addUpdates updateRevision
  rw [yields_modify]
  refine h _ ?_ rfl rfl
  unfold revisionOf
  rw [AList.lookup_insert]
  rfl

/-- The descriptor is written, with the version of the operation. -/
theorem yields_finalize_version (hv : op.isValid = true)
    (ht : op.keyinfo.keyType = .kVersionedHash) (newsize : Int) :
    Yields (op.finalize newsize true) s
      (fun _ s' => ∃ bytes d, s' = s.putIn (.descriptor op.redisKey) bytes ∧
        KeyDescriptor.ofBytes bytes = .ok d ∧ d.keyType = .kVersionedHash ∧
        d.startIndex = op.keyinfo.startIndex)
      fun fault => fault = .thrown "invalid newsize: " := by
  by_cases h0 : newsize < 0
  · unfold WriteOperation.finalize
    rw [WriteOperation.assertWritable_valid hv, pure_bind, if_pos h0]
    exact rfl
  have hs : ∃ bytes, KeyDescriptor.serialize { op.keyinfo with sz := newsize } = .ok bytes := by
    unfold KeyDescriptor.serialize
    dsimp only
    rw [ht]
    exact ⟨_, rfl⟩
  obtain ⟨bytes, hs⟩ := hs
  obtain ⟨d, hd, hd', -, -, hi⟩ := ofBytes_serialize_wrapped hs
  rw [yields_finalize_written hv (by omega) (fun _ => ht) (.inr rfl) hs]
  exact ⟨bytes, d, rfl, hd, hd'.trans ht, hi (by rw [show _ = KeyType.kVersionedHash from ht]; rfl)⟩

/-- What is left of the fields when some are deleted. -/
theorem yields_deleteLoop_hash (hv : op.isValid = true)
    (ht : op.keyinfo.keyType = .kVersionedHash) (fields : List Bytes) {s : StagingArea} :
    Yields (deleteLoop op fields) s (fun removed s' => 0 ≤ removed ∧
        (removed ≠ 0 ↔ fields.any (hasField s.store op.redisKey) = true) ∧
        (∀ field, hasField s'.store op.redisKey field =
          (hasField s.store op.redisKey field && field ∉ fields)) ∧
        s'.store.lookup (.descriptor op.redisKey) = s.store.lookup (.descriptor op.redisKey) ∧
        s'.batch.lookup (.descriptor op.redisKey) = s.batch.lookup (.descriptor op.redisKey) ∧
        s'.revisionTracker = s.revisionTracker) fault := by
  induction fields generalizing s with
  | nil => exact ⟨Int.le_refl 0, by simp, fun field => by simp, rfl, rfl, rfl⟩
  | cons field rest ih =>
    unfold deleteLoop
    rw [yields_bind, WriteOperation.deleteField_eq hv (by rw [ht]; rfl), ht]
    rcases hf : hasField s.store op.redisKey field
    · rw [yields_deleteKey_missing]
      · rw [yields_bind]
        refine ih.mono fun removed s' hs => ?_
        obtain ⟨h0, hany, hhas, hd, hb, hr⟩ := hs
        rw [yields_pure]
        refine ⟨by simpa using h0, ?_, fun other => ?_, hd, hb, hr⟩
        · simpa [hf] using hany
        · rw [hhas]
          by_cases ho : other = field
          · subst ho
            simp [hf]
          · simp [ho]
      · rw [← AList.lookup_eq_none]
        exact Option.not_isSome_iff_eq_none.mp (by rw [show Option.isSome _ = _ from hf]; simp)
    · rw [yields_deleteKey]
      · rw [yields_bind]
        refine ih.mono fun removed s' hs => ?_
        obtain ⟨h0, hany, hhas, hd, hb, hr⟩ := hs
        rw [yields_pure]
        refine ⟨by simp; omega, ?_, fun other => ?_, ?_, ?_, hr⟩
        · simp [hf]
          omega
        · rw [hhas]
          by_cases ho : other = field
          · subst ho
            have : hasField (s.delIn (.field .kVersionedHash op.redisKey other)).store op.redisKey
                other = false := congrArg Option.isSome (AList.lookup_erase _ _)
            simp [this]
          · have : hasField (s.delIn (.field .kVersionedHash op.redisKey field)).store op.redisKey
                other = hasField s.store op.redisKey other :=
              congrArg Option.isSome (AList.lookup_erase_ne (by simpa using ho))
            simp [this, ho]
        · rw [hd]
          exact AList.lookup_erase_ne (by simp)
        · rw [hb]
          exact AList.lookup_erase_ne (by simp)
      · rw [← AList.lookup_isSome]
        exact hf

/-- Of all failures, only the assertion on the revision tells that it was refused. -/
def Refuses (t : HashState) (e : HashEvent) (fault : Fault) : Prop :=
  fault = .assertion "currentRevision == rev" ↔ ¬t.Accepts e

/-- What a command on the hash comes to. -/
def Counts (key : Bytes) (t : HashState) (e : HashEvent) (result : Status × UInt64)
    (s' : StagingArea) : Prop :=
  t.Accepts e ∧ result = (.OK, t.number e) ∧ Shows key (t.after e) s'

/-- The end of a command: fields and revision are as they shall be, and the descriptor is
not. -/
theorem yields_finish (hk : op.redisKey = key) (hv : op.isValid = true)
    (ht : op.keyinfo.keyType = .kVersionedHash) (he : e ≠ .wipe) (ha : t.Accepts e)
    (hf : ∀ field, hasField s.store key field = e.fieldsAfter t.has field)
    (hr : revisionOf s key = t.number e) (newsize : Int) :
    Yields (WriteOperation.finalize
        { op with keyinfo := { op.keyinfo with startIndex := t.number e } } newsize true >>=
      fun _ => pure (Status.OK, t.number e)) s (Counts key t e) (Refuses t e) := by
  let op' : WriteOperation :=
    { op with keyinfo := { op.keyinfo with startIndex := t.number e } }
  change Yields (op'.finalize newsize true >>= fun _ => pure (Status.OK, t.number e)) s _ _
  have hk' : op'.redisKey = key := hk
  have hv' : op'.isValid = true := hv
  obtain ⟨hversion, hhas, hwritten, hrevision⟩ := HashState.after_of_ne (t := t) he
  rw [yields_bind]
  refine ((yields_finalize_version hv' ht newsize).mono fun _ s' hs => ?_).weaken
    fun fault hw => ?_
  · obtain ⟨bytes, d, rfl, hd, hd', hi⟩ := hs
    rw [yields_pure]
    refine ⟨ha, rfl, ?_, fun version hn => ?_, fun field => ?_, ?_, ?_⟩
    · rw [hversion]
      nofun
    · rw [hversion] at hn
      cases hn
      rw [hk']
      exact ⟨bytes, d, AList.lookup_insert _, hd, hd', hi⟩
    · rw [hhas, ← hf field]
      exact congrArg Option.isSome (AList.lookup_insert_ne (by nofun))
    · rw [hwritten, hk']
      exact congrArg Option.isSome (AList.lookup_insert _)
    · rw [hrevision]
      exact hr
  · subst hw
    exact ⟨nofun, fun h => absurd ha h⟩

theorem yields_vhset (h : Shows key t s) (field value : Bytes) :
    Yields (vhset key field value) s (Counts key t (.set field)) (Refuses t (.set field)) := by
  unfold vhset
  refine yields_versioned h fun op hk hv ht hi => ?_
  subst hk
  have hn : (if true = true ∧ t.written = false then t.version.getD 0 + 1 else t.version.getD 0) =
      t.number (.set field) := rfl
  have hb : ((s.putIn (.field .kVersionedHash op.redisKey field) value).batch.lookup
      (.descriptor op.redisKey)).isSome = t.written := by
    rw [← h.written]
    exact congrArg Option.isSome (AList.lookup_insert_ne (by nofun))
  have hf : ∀ other, hasField (s.putIn (.field .kVersionedHash op.redisKey field) value).store op.redisKey other =
      (HashEvent.set field).fieldsAfter t.has other := by
    intro other
    change _ = (t.has other || decide (other = field))
    by_cases ho : other = field
    · subst ho
      rw [decide_eq_true rfl, Bool.or_true]
      exact congrArg Option.isSome (AList.lookup_insert s.store)
    · rw [decide_eq_false ho, Bool.or_false, ← h.fields]
      exact congrArg Option.isSome (AList.lookup_insert_ne (by simpa using ho))
  rw [yields_bind, WriteOperation.fieldExists_eq hv (by rw [ht]; rfl), yields_keyExists,
    yields_bind, WriteOperation.writeField_eq hv (by rw [ht]; rfl), yields_put, yields_bind,
    yields_nextVersion, ht, hi, hb, hn, yields_bind]
  have hr : revisionOf (s.putIn (.field .kVersionedHash op.redisKey field) value) op.redisKey =
      t.revision :=
    h.revision
  refine ((yields_setRevisionNumber _).mono fun _ s1 hs1 => ?_).weaken fun fault hw => ?_
  · obtain ⟨ha, hr1, hst, -⟩ := hs1
    rw [hr] at ha
    rw [yields_bind]
    refine yields_addUpdates _ fun s2 hr2 hst2 _ => ?_
    refine yields_finish (e := .set field) rfl hv ht (by nofun) ha (fun other => ?_)
      (hr2.trans hr1) _
    rw [hst2, hst]
    exact hf other
  · rw [hr] at hw
    exact ⟨fun _ => hw.2, fun _ => hw.1⟩

theorem yields_vhdel (h : Shows key t s) (fields : List Bytes) :
    Yields (vhdel key fields) s (Counts key t (.del fields)) (Refuses t (.del fields)) := by
  unfold vhdel
  refine yields_versioned h fun op hk hv ht hi => ?_
  rw [yields_bind]
  refine (yields_deleteLoop_hash hv ht fields).mono fun removed s1 hs1 => ?_
  obtain ⟨-, hany, hhas, -, hb, hr1⟩ := hs1
  rw [hk] at hany hhas hb
  rw [show hasField s.store key = t.has from funext h.fields] at hany hhas
  rw [yields_bind]
  refine yields_addUpdates _ fun s2 hr2 hst2 hb2 => ?_
  have hn : (if decide (removed ≠ 0) = true ∧
      (s2.batch.lookup (.descriptor op.redisKey)).isSome = false
      then op.keyinfo.startIndex + 1 else op.keyinfo.startIndex) = t.number (.del fields) := by
    unfold HashState.number HashEvent.changes
    rw [hk, hb2, hb, h.written, hi]
    exact if_congr (and_congr_left' (decide_eq_true_iff.trans hany)) rfl rfl
  have hr : revisionOf s2 key = t.revision := by
    rw [hr2, ← h.revision]
    unfold revisionOf
    rw [hr1]
  rw [yields_bind, yields_nextVersion, hn, yields_bind]
  refine ((yields_setRevisionNumber _).mono fun _ s3 hs3 => ?_).weaken fun fault hw => ?_
  · obtain ⟨ha, hr3, hst3, -⟩ := hs3
    rw [hr] at ha
    refine yields_finish (e := .del fields) hk hv ht (by nofun) ha (fun other => ?_) hr3 _
    rw [hst3, hst2]
    exact hhas other
  · rw [hr] at hw
    exact ⟨fun _ => hw.2, fun _ => hw.1⟩

end

/-! ## Removals -/

section

variable {key : Bytes} {t : HashState} {s s' : StagingArea} {fault : Fault → Prop}

/-- Removals do not change what the publisher gets, and take the descriptor out of the batch
with that in the store. -/
def Removing (key : Bytes) (rev : UInt64) (s : StagingArea) : Prop :=
  revisionOf s key = rev ∧
    (s.store.lookup (.descriptor key) = none → s.batch.lookup (.descriptor key) = none)

theorem Removing.delIn {rev : UInt64} (h : Removing key rev s) (k : StoreKey) :
    Removing key rev (s.delIn k) := by
  refine ⟨h.1, fun hn => ?_⟩
  by_cases hk : k = .descriptor key
  · subst hk
    exact AList.lookup_erase _ _
  · have hs : (s.delIn k).store.lookup (.descriptor key) = s.store.lookup (.descriptor key) :=
      AList.lookup_erase_ne (Ne.symm hk)
    rw [hs] at hn
    exact (AList.lookup_erase_ne (Ne.symm hk)).trans (h.2 hn)

theorem Shows.removing (h : Shows key t s) : Removing key t.revision s := by
  refine ⟨h.revision, fun hn => ?_⟩
  have hv : t.version = none := by
    rcases hv : t.version with _ | version
    · rfl
    · obtain ⟨bytes, d, hl, -⟩ := h.known version hv
      rw [hn] at hl
      cases hl
  have hw := h.written
  rw [(t.absent hv).1] at hw
  exact Option.not_isSome_iff_eq_none.mp (by rw [hw]; nofun)

theorem Removing.wiped (h : Removing key t.revision s)
    (hd : s.store.lookup (.descriptor key) = none)
    (hf : ∀ field, hasField s.store key field = false) : Shows key (t.after .wipe) s :=
  ⟨fun _ => hd, nofun, hf, congrArg Option.isSome (h.2 hd), h.1⟩

theorem Shows.wiped (h : Shows key t s) (hn : t.version = none) : Shows key (t.after .wipe) s :=
  h.removing.wiped (h.missing hn) fun field => (h.fields field).trans ((t.absent hn).2 field)

/-- All keys that are meant go, and the batch goes with the store. -/
theorem yields_removeAll_of {rev : UInt64} (h : Removing key rev s) (under : StoreKey → Bool) :
    Yields (removeAll under) s (fun _ s' => Removing key rev s' ∧
      ∀ k, s'.store.lookup k = if under k = true then none else s.store.lookup k) fault := by
  have hkept : Leaves (Removing key rev) (removeAll under) :=
    leaves_removeAll fun k _ s hs => hs.delIn k
  have hgone : Yields (removeAll under) s (fun _ s' =>
      ∀ k, s'.store.lookup k = if under k = true then none else s.store.lookup k) fault :=
    yields_removeAll fun s' hs' _ => hs'
  exact (hgone.and (hkept s h)).mono fun _ s' hs => ⟨hs.2, hs.1⟩

theorem yields_delKeys_of (keys : List Bytes) {t : HashState} {s : StagingArea}
    (h : Shows key t s) :
    Yields (delKeys keys) s (fun _ s' =>
      Shows key (if key ∈ keys then t.after .wipe else t) s') fun _ => True := by
  induction keys generalizing t s with
  | nil => exact h
  | cons first rest ih =>
    by_cases hf : first = key
    · subst hf
      -- what the rest finds is removed already
      have hrest : ∀ s1, Shows first (t.after .wipe) s1 → Yields (delKeys rest) s1 (fun _ s' =>
          Shows first (if first ∈ first :: rest then t.after .wipe else t) s') fun _ => True := by
        intro s1 h1
        rw [if_pos List.mem_cons_self]
        refine (ih h1).mono fun _ s' hs => ?_
        split at hs
        · exact hs
        · exact hs
      unfold delKeys getKeyDescriptor
      rw [yields_bind, yields_bind, yields_lookup]
      rcases hv : t.version with _ | version
      · rw [h.missing hv]
        exact hrest s (h.wiped hv)
      obtain ⟨bytes, d, hl, hd, ht, -⟩ := h.known version hv
      rw [hl]
      dsimp only
      rw [hd, throwing_ok, yields_pure, ofBytes_not_empty hd, if_neg Bool.false_ne_true, yields_bind]
      unfold removeContents
      rw [ht]
      unfold removeCounted
      rw [yields_bind]
      refine (yields_removeAll_of h.removing _).mono fun count s1 hs1 => ?_
      obtain ⟨hr, hs1⟩ := hs1
      split
      · trivial
      rw [yields_pure, yields_bind, yields_del, yields_bind]
      refine hrest _ ((hr.delIn _).wiped (AList.lookup_erase _ _) fun field => ?_)
      have hfield : s1.store.lookup (.field .kVersionedHash first field) = none := by
        rw [hs1, if_pos (isField_self _ _ _)]
      exact congrArg Option.isSome ((AList.lookup_erase_ne (by simp)).trans hfield)
    · have hiff : key ∈ first :: rest ↔ key ∈ rest := by
        rw [List.mem_cons]
        exact ⟨fun hm => hm.resolve_left (Ne.symm hf), .inr⟩
      simp only [hiff]
      unfold delKeys
      rw [yields_bind]
      have hread : Keeps (Shows key t) (fun _ => True) (getKeyDescriptor first) :=
        (leaves_getKeyDescriptor first).weaken fun _ _ => trivial
      refine (hread s h).mono fun keyInfo s1 h1 => ?_
      split
      · exact ih h1
      rw [yields_bind]
      have hremoved := keeps_removeKey aloof_shows (tolerates_shows (t := t) hf keyInfo.keyType)
      refine (hremoved s1 h1).mono fun _ s2 h2 => ?_
      rw [yields_bind, yields_del, yields_bind]
      exact ih ((tolerates_shows hf .kNull).forget s2 h2)

/-- Nothing is left of any key. -/
theorem yields_flushall_of (h : Shows key t s) :
    Yields flushall s (fun _ s' => Shows key (t.after .wipe) s') fault := by
  unfold flushall
  rw [yields_bind]
  refine (yields_removeAll_of h.removing isData).mono fun _ s1 hs1 => ?_
  obtain ⟨hr, hs1⟩ := hs1
  rw [yields_bind, yields_modify, yields_pure]
  have hw : Shows key (t.after .wipe) s1 := by
    refine hr.wiped ?_ fun field => ?_
    · rw [hs1]
      rfl
    · unfold hasField
      rw [hs1]
      rfl
  exact hw.congr rfl (fun _ => rfl) rfl rfl

end

/-! ## Requests -/

/-- What a request does to a versioned hash. -/
def eventOn (key : Bytes) (request : RedisRequest) : Option HashEvent :=
  match getCommand request, request.tail with
  | .VHSET, [k, field, _] => if k = key then some (.set field) else none
  | .VHDEL, k :: field :: fields => if k = key then some (.del (field :: fields)) else none
  | .DEL, keys => if key ∈ keys then some .wipe else none
  | .FLUSHALL, [] => some .wipe
  | _, _ => none

def eventsOn (key : Bytes) (requests : List RedisRequest) : List HashEvent :=
  requests.filterMap (eventOn key)

/-- The commands on a versioned hash, and what they reply. -/
def answersOn (key : Bytes) (requests : List RedisRequest) (replies : List Bytes) :
    List (HashEvent × Bytes) :=
  (requests.zip replies).filterMap fun p => (eventOn key p.1).map fun e => (e, p.2)

/-- A command that may change the key is one on versioned hashes, or removes it. A
transaction inside the request has none of them. -/
structure OnlyVersions (key : Bytes) (request : RedisRequest) : Prop where
  commands : ∀ inner, Within inner request → getCommandType inner = .WRITE →
    getCommand inner ≠ .TX_READWRITE →
    getCommand inner ∈ [RedisCommand.VHSET, .VHDEL, .DEL, .FLUSHALL] ∨ key ∉ keysOf inner
  flat : getCommand request = .TX_READWRITE → ∀ inner, Within inner request →
    eventOn key inner = none

/-- The reply to a command on a versioned hash. -/
def versionReply (version : UInt64) : Bytes := integer (Endian.signed version.toNat)

/-- What a request comes to. -/
def Answers (key : Bytes) (t : HashState) : Option HashEvent → Bytes → StagingArea → Prop
  | none, _, s' => Shows key t s'
  | some e, reply, s' =>
    (e ≠ .wipe → t.Accepts e ∧ reply = versionReply (t.number e)) ∧ Shows key (t.after e) s'

def Fails (t : HashState) : Option HashEvent → Fault → Prop
  | some (.set field), fault => Refuses t (.set field) fault
  | some (.del fields), fault => Refuses t (.del fields) fault
  | _, _ => True

section

variable (doubles : Doubles) (dispatchRead : StagingArea → RedisRequest → Except Fault Bytes)
  {key : Bytes} {t : HashState} {s : StagingArea} {request : RedisRequest}

/-- A command that is not on the hash leaves it alone. -/
theorem keeps_shows (he : eventOn key request = none)
    (hc : getCommand request ∈ [RedisCommand.VHSET, .VHDEL, .DEL, .FLUSHALL] ∨
      key ∉ keysOf request) :
    Keeps (Shows key t) (fun _ => True) (dispatchCommand doubles request) := by
  have hother : key ∉ keysOf request → getCommand request ≠ .FLUSHALL →
      Keeps (Shows key t) (fun _ => True) (dispatchCommand doubles request) := by
    intro hk hf
    refine keeps_dispatchCommand doubles aloof_shows hf (fun key' hk' type => ?_)
      fun s k value h => h.putIn (by nofun) (by nofun) value
    refine tolerates_shows (fun h => ?_) type
    rw [h] at hk'
    exact hk hk'
  by_cases hf : getCommand request = .FLUSHALL
  · -- FLUSHALL with arguments is refused
    rcases ht : request.tail with _ | ⟨arg, args⟩
    · unfold eventOn at he
      rw [hf, ht] at he
      cases he
    · unfold dispatchCommand
      rw [hf, ht]
      exact keeps_pure _
  by_cases hk : key ∈ keysOf request
  swap
  · exact hother hk hf
  -- so are the others, unless they have the number of arguments that makes them an event
  have hc := hc.resolve_right (not_not.mpr hk)
  simp only [List.mem_cons, List.not_mem_nil, or_false] at hc
  rcases hc with hc | hc | hc | hc
  · unfold keysOf at hk
    unfold eventOn at he
    unfold dispatchCommand
    rw [hc] at hk he ⊢
    rcases ht : request.tail with _ | ⟨k, _ | ⟨field, _ | ⟨value, _ | ⟨arg, args⟩⟩⟩⟩ <;>
      rw [ht] at hk he <;> dsimp only at hk he ⊢ <;> try exact keeps_pure _
    rw [List.mem_singleton] at hk
    rw [if_pos hk.symm] at he
    cases he
  · unfold keysOf at hk
    unfold eventOn at he
    unfold dispatchCommand
    rw [hc] at hk he ⊢
    rcases ht : request.tail with _ | ⟨k, _ | ⟨field, fields⟩⟩ <;>
      rw [ht] at hk he <;> dsimp only at hk he ⊢ <;> try exact keeps_pure _
    rw [List.mem_singleton] at hk
    rw [if_pos hk.symm] at he
    cases he
  · unfold keysOf at hk
    unfold eventOn at he
    rw [hc] at hk he
    dsimp only at hk he
    rw [if_pos hk] at he
    cases he
  · exact absurd hc hf

/-- A command on the hash does what its event says. -/
theorem yields_event {e : HashEvent} (he : eventOn key request = some e) (h : Shows key t s) :
    Yields (dispatchCommand doubles request) s (Answers key t (some e)) (Fails t (some e)) := by
  unfold eventOn at he
  unfold dispatchCommand
  split at he
  · rename_i k field value hc ht
    split at he
    · rename_i hk
      subst hk
      cases he
      rw [hc, ht, yields_bind]
      refine (yields_vhset h field value).mono fun r s' hs => ?_
      obtain ⟨ha, rfl, hshows⟩ := hs
      exact ⟨fun _ => ⟨ha, rfl⟩, hshows⟩
    · cases he
  · rename_i k field fields hc ht
    split at he
    · rename_i hk
      subst hk
      cases he
      rw [hc, ht, yields_bind]
      refine (yields_vhdel h (field :: fields)).mono fun r s' hs => ?_
      obtain ⟨ha, rfl, hshows⟩ := hs
      exact ⟨fun _ => ⟨ha, rfl⟩, hshows⟩
    · cases he
  · rename_i hc
    split at he
    · rename_i hk
      cases he
      rcases ht : request.tail with _ | ⟨k, keys⟩
      · rw [ht] at hk
        cases hk
      rw [ht] at hk
      rw [hc, yields_bind]
      refine (yields_delKeys_of (k :: keys) h).mono fun r s' hs => ?_
      rw [if_pos hk] at hs
      exact ⟨nofun, hs⟩
    · cases he
  · rename_i hc ht
    cases he
    rw [hc, ht, yields_bind]
    refine (yields_flushall_of h).mono fun r s' hs => ?_
    exact ⟨nofun, hs⟩
  · cases he

theorem command_of_event {e : HashEvent} (he : eventOn key request = some e) :
    getCommandType request = .WRITE ∧ getCommand request ≠ .TX_READWRITE := by
  have htype : ∀ command : RedisCommand, getCommand request = command → command ≠ .INVALID →
      (∀ row ∈ redisCmdMap, row.2.1 = command → row.2.2 = .WRITE) →
      command ≠ .TX_READWRITE →
      getCommandType request = .WRITE ∧ getCommand request ≠ .TX_READWRITE := by
    intro command hc hi hrow hne
    exact ⟨getCommandType_of_table hc hi hrow, by rw [hc]; exact hne⟩
  unfold eventOn at he
  split at he
  · rename_i hc _
    exact htype _ hc nofun (by decide +kernel) nofun
  · rename_i hc _
    exact htype _ hc nofun (by decide +kernel) nofun
  · rename_i hc
    exact htype _ hc nofun (by decide +kernel) nofun
  · rename_i hc _
    exact htype _ hc nofun (by decide +kernel) nofun
  · cases he

theorem yields_request (hr : OnlyVersions key request) (h : Shows key t s) :
    Yields (dispatchOne doubles dispatchRead request) s (Answers key t (eventOn key request))
      (Fails t (eventOn key request)) := by
  rcases he : eventOn key request with _ | e
  · by_cases ht : getCommandType request = .WRITE
    swap
    · unfold Yields
      rw [dispatchOne_of_read doubles dispatchRead ht]
      cases dispatchRead s request with
      | error fault => trivial
      | ok reply => exact h
    by_cases hc : getCommand request = .TX_READWRITE
    · refine keeps_dispatchReadWrite doubles dispatchRead (fun inner => Within inner request)
        (fun inner hw ht hc' => ?_) _ (fun inner hw => hw) s h
      exact keeps_shows doubles (hr.flat hc inner hw) (hr.commands inner hw ht hc')
    · rw [dispatchOne_of_write doubles dispatchRead ht hc]
      exact keeps_shows doubles he (hr.commands request .self ht hc) s h
  · obtain ⟨ht, hc⟩ := command_of_event he
    rw [dispatchOne_of_write doubles dispatchRead ht hc]
    exact yields_event doubles he h

/-! ## Batches -/

/-- Every command on the hash was let through, and replied its version. -/
def Replied : HashState → List (HashEvent × Bytes) → Prop
  | _, [] => True
  | t, (e, reply) :: rest =>
    (e ≠ .wipe → t.Accepts e ∧ reply = versionReply (t.number e)) ∧ Replied (t.after e) rest

theorem Replied.accepted {answers : List (HashEvent × Bytes)} (h : Replied t answers) :
    t.Accepted (answers.map Prod.fst) := by
  induction answers generalizing t with
  | nil => trivial
  | cons a rest ih => exact ⟨fun he => (h.1 he).1, ih h.2⟩

theorem answersOn_cons (key : Bytes) (request : RedisRequest) (requests : List RedisRequest)
    (reply : Bytes) (replies : List Bytes) :
    answersOn key (request :: requests) (reply :: replies) =
      ((eventOn key request).map fun e => (e, reply)).toList ++ answersOn key requests replies := by
  unfold answersOn
  rw [List.zip_cons_cons, List.filterMap_cons]
  rcases eventOn key request with _ | e <;> rfl

theorem eventsOn_cons (key : Bytes) (request : RedisRequest) (requests : List RedisRequest) :
    eventsOn key (request :: requests) =
      (eventOn key request).toList ++ eventsOn key requests := by
  unfold eventsOn
  rw [List.filterMap_cons]
  rcases eventOn key request with _ | e <;> rfl

/-- The commands of a batch on the hash, one after the other. -/
theorem yields_requests {requests : List RedisRequest}
    (hr : ∀ request ∈ requests, OnlyVersions key request) {t : HashState} {s : StagingArea}
    (h : Shows key t s) :
    Yields (requests.mapM (dispatchOne doubles dispatchRead)) s (fun replies s' =>
      Replied t (answersOn key requests replies) ∧
      (answersOn key requests replies).map Prod.fst = eventsOn key requests ∧
      Shows key (t.run (eventsOn key requests)) s') fun _ => True := by
  induction requests generalizing t s with
  | nil =>
    rw [List.mapM_nil, yields_pure]
    exact ⟨trivial, rfl, h⟩
  | cons request rest ih =>
    have hrest := fun r hm => hr r (List.mem_cons_of_mem request hm)
    rw [List.mapM_cons, yields_bind]
    have hone := yields_request doubles dispatchRead (hr request List.mem_cons_self) h
    refine (hone.mono fun reply s1 h1 => ?_).weaken fun _ _ => trivial
    rw [yields_bind, eventsOn_cons]
    rcases he : eventOn key request with _ | e <;> rw [he] at h1
    · refine (ih hrest h1).mono fun replies s2 h2 => ?_
      rw [yields_pure, answersOn_cons, he]
      exact h2
    · refine (ih hrest h1.2).mono fun replies s2 h2 => ?_
      rw [yields_pure, answersOn_cons, he]
      exact ⟨⟨h1.1, h2.1⟩, congrArg (e :: ·) h2.2.1, h2.2.2⟩

variable (key) in
/-- What the commit of a batch does not touch is as the batch has left it. -/
theorem versionOf_committed {m m' : Machine} {tx : Transaction} {index : Int} {reply : Bytes}
    (h : dispatchTransaction doubles dispatchRead m tx index = .ok (reply, m')) :
    ∃ replies s, tx.requests.mapM (dispatchOne doubles dispatchRead) (stage m) =
        .ok (replies, s) ∧ reply = buildResponse tx.phantom replies ∧
      versionOf m'.store key = versionOf s.store key := by
  unfold dispatchTransaction commitAfter at h
  obtain ⟨⟨resp, s⟩, hrun, h⟩ := ok_of_bind h
  unfold dispatchAll at hrun
  obtain ⟨⟨u, s0⟩, hassert, hrun⟩ := ok_of_bind hrun
  have hs0 : s0 = stage m := by
    unfold assertThat throwing qdbAssert at hassert
    split at hassert
    · cases hassert
      rfl
    · cases hassert
  subst hs0
  obtain ⟨⟨replies, s1⟩, hmap, hrun⟩ := ok_of_bind hrun
  cases hrun
  refine ⟨replies, s, hmap, ?_⟩
  dsimp only at h
  split at h
  · obtain ⟨m1, hc, h⟩ := ok_of_bind h
    cases h
    refine ⟨rfl, ?_⟩
    unfold commitTransaction at hc
    unfold versionOf
    split at hc
    · cases hc
    split at hc
    · split at hc
      · cases hc
      · cases hc
        rw [AList.lookup_insert_ne (by nofun)]
    · cases hc
      rfl
  · rename_i hw
    cases h
    have hreads : ∀ r ∈ tx.requests, getCommandType r ≠ .WRITE := by
      intro r hmem ht
      have hwrites := tx.hasWrites_eq
      rw [show tx.hasWrites = false from (Bool.not_eq_true _).mp hw] at hwrites
      exact List.any_eq_false.mp hwrites.symm r hmem (decide_eq_true ht)
    rw [mapM_of_reads doubles dispatchRead hreads hmap]
    exact ⟨rfl, rfl⟩

end

/-- A batch counts as one version: if it changes the hash, that is the next one, and all
replies from the first change on and the revision for the publisher carry it. Else the
hash, or its absence, stays. -/
def CountsOnce (before : Option UInt64) (has : Bytes → Bool)
    (answers : List (HashEvent × Bytes)) (revision : UInt64) (after : Option UInt64) : Prop :=
  if ∃ a ∈ answers, a.1.changes has = true then
    ∃ version, after = some version ∧ version.toNat = (before.getD 0).toNat + 1 ∧
      revision = version ∧
      ∀ a ∈ answers.dropWhile fun a => !a.1.changes has, a.2 = versionReply version
  else after = before

/-- There is no command on the hash; or the first one changes it, and there is a next
version; or the hash exists and none of them changes it. -/
def FirstDecides (before : Option UInt64) (has : Bytes → Bool) (events : List HashEvent) : Prop :=
  match events with
  | [] => True
  | e :: _ => (e.changes has = true ∧ (before.getD 0).toNat + 1 < 2 ^ 64) ∨
      (before ≠ none ∧ ∀ e' ∈ events, e'.changes has = false)

theorem Replied.reply_eq {t : HashState} {answers : List (HashEvent × Bytes)}
    (h : Replied t answers) (hw : t.written = true) (hn : ∀ a ∈ answers, a.1 ≠ .wipe) :
    ∀ a ∈ answers, a.2 = versionReply t.revision := by
  induction answers generalizing t with
  | nil => nofun
  | cons a rest ih =>
    have ha := hn a List.mem_cons_self
    obtain ⟨-, -, hw', hr⟩ := HashState.after_of_ne (t := t) ha
    rw [HashState.number_of_written hw] at hr
    intro b hb
    rw [List.mem_cons] at hb
    rcases hb with rfl | hb
    · rw [(h.1 ha).2, HashState.number_of_written hw]
    · rw [ih h.2 hw' (fun c hc => hn c (List.mem_cons_of_mem a hc)) b hb, hr]

theorem next_toNat (v : UInt64) : (v + 1).toNat = v.toNat + 1 ↔ v.toNat + 1 < 2 ^ 64 := by
  have h1 : (1 : UInt64).toNat = 1 := rfl
  rw [UInt64.toNat_add, h1]
  omega

/-- The first command decides: all others reply its version. -/
theorem Replied.countsOnce_iff {t : HashState} {answers : List (HashEvent × Bytes)}
    (h : Replied t answers) (hw : t.written = false) (hn : ∀ a ∈ answers, a.1 ≠ .wipe) :
    CountsOnce t.version t.has answers (t.run (answers.map Prod.fst)).revision
        (t.run (answers.map Prod.fst)).version ↔
      FirstDecides t.version t.has (answers.map Prod.fst) := by
  rcases answers with _ | ⟨⟨e, reply⟩, rest⟩
  · unfold CountsOnce FirstDecides
    rw [if_neg (by simp)]
    exact ⟨fun _ => trivial, fun _ => rfl⟩
  have he : e ≠ .wipe := hn (e, reply) List.mem_cons_self
  have hrest : ∀ a ∈ rest, a.1 ≠ .wipe := fun a ha => hn a (List.mem_cons_of_mem _ ha)
  obtain ⟨hv1, -, hw1, hr1⟩ := HashState.after_of_ne (t := t) he
  obtain ⟨hv, hr⟩ := @HashState.run_of_no_wipe (rest.map Prod.fst) (t.after e) hw1
    fun e' he' => by
      obtain ⟨a, ha, rfl⟩ := List.mem_map.mp he'
      exact hrest a ha
  rw [hr1] at hv hr
  have hreplies : ∀ a ∈ (e, reply) :: rest, a.2 = versionReply (t.number e) := by
    intro a ha
    rw [List.mem_cons] at ha
    rcases ha with rfl | ha
    · exact (h.1 he).2
    · rw [← hr1]
      exact h.2.reply_eq hw1 hrest a ha
  change CountsOnce _ _ _ ((t.after e).run (rest.map Prod.fst)).revision
    ((t.after e).run (rest.map Prod.fst)).version ↔ _
  rw [hv, hr]
  unfold CountsOnce FirstDecides
  rw [List.map_cons]
  dsimp only
  by_cases hc : e.changes t.has = true
  · have hnum : t.number e = t.version.getD 0 + 1 := if_pos ⟨hc, hw⟩
    rw [if_pos ⟨(e, reply), List.mem_cons_self, hc⟩, List.dropWhile_cons_of_neg (by simpa using hc)]
    constructor
    · rintro ⟨version, hs, hnext, -, -⟩
      cases hs
      rw [hnum, next_toNat] at hnext
      exact .inl ⟨hc, hnext⟩
    · intro hd
      have hlt : (t.version.getD 0).toNat + 1 < 2 ^ 64 := by
        rcases hd with hd | hd
        · exact hd.2
        · rw [hd.2 e List.mem_cons_self] at hc
          cases hc
      refine ⟨t.number e, rfl, ?_, rfl, hreplies⟩
      rw [hnum, next_toNat]
      exact hlt
  · have hnum : t.number e = t.version.getD 0 := if_neg fun hh => hc hh.1
    rw [hnum]
    split
    · rename_i hany
      obtain ⟨a, ha, hca⟩ := hany
      constructor
      · rintro ⟨version, hs, hnext, -, -⟩
        cases hs
        omega
      · rintro (hd | hd)
        · exact absurd hd.1 hc
        · have := hd.2 a.1 (List.mem_map_of_mem ha)
          rw [hca] at this
          cases this
    · rename_i hnone
      constructor
      · intro hs
        refine .inr ⟨by rw [← hs]; nofun, fun e' he' => ?_⟩
        rw [← List.map_cons (f := Prod.fst) (a := (e, reply)), List.mem_map] at he'
        obtain ⟨a, ha, rfl⟩ := he'
        exact Bool.eq_false_iff.mpr fun hca => hnone ⟨a, ha, hca⟩
      · rintro (hd | hd)
        · exact absurd hd.1 hc
        · rcases hb : t.version with _ | version
          · exact absurd hb hd.1
          · rfl

/-- A batch counts as one version exactly when its first command on the hash decides so.
Removals of the hash in a batch make the assertion on the revision fail exactly when the
versions that open after them do not agree. -/
theorem a_batch_is_one_version_when_its_first_command_changes_the_hash (doubles : Doubles)
    (dispatchRead : StagingArea → RedisRequest → Except Fault Bytes) {m : Machine} {key : Bytes}
    {tx : Transaction} (hk : IsVersionedHash m.store key)
    (hr : ∀ request ∈ tx.requests, OnlyVersions key request) :
    (∀ index reply m', (∀ e ∈ eventsOn key tx.requests, e ≠ .wipe) →
      dispatchTransaction doubles dispatchRead m tx index = .ok (reply, m') →
      ∃ replies s, tx.requests.mapM (dispatchOne doubles dispatchRead) (stage m) =
          .ok (replies, s) ∧ reply = buildResponse tx.phantom replies ∧
        (CountsOnce (versionOf m.store key) (hasField m.store key)
            (answersOn key tx.requests replies) (revisionOf s key) (versionOf m'.store key) ↔
          FirstDecides (versionOf m.store key) (hasField m.store key)
            (eventsOn key tx.requests))) ∧
    ∀ earlier request later replies s e, tx.requests = earlier ++ request :: later →
      earlier.mapM (dispatchOne doubles dispatchRead) (stage m) = .ok (replies, s) →
      eventOn key request = some e → e ≠ .wipe →
      (dispatchOne doubles dispatchRead request s = .error (.assertion "currentRevision == rev") ↔
        ¬Agree (openings ((versionOf m.store key).getD 0) (hasField m.store key) false
          (eventsOn key (earlier ++ [request])))) := by
  have hshows : Shows key (.initial hk) (stage m) := shows_initial hk
  constructor
  · intro index reply m' hn hd
    obtain ⟨replies, s, hmap, hreply, hversion⟩ :=
      versionOf_committed doubles dispatchRead key hd
    obtain ⟨hreplied, hevents, hs⟩ :=
      (yields_requests doubles dispatchRead hr hshows).of_ok hmap
    refine ⟨replies, s, hmap, hreply, ?_⟩
    rw [hversion, hs.version_eq, hs.revision, ← hevents]
    refine hreplied.countsOnce_iff rfl fun a ha => hn a.1 ?_
    rw [← hevents]
    exact List.mem_map_of_mem ha
  · intro earlier request later replies s e ht hmap he hne
    have hmem : ∀ r ∈ earlier, OnlyVersions key r := by
      intro r hm
      apply hr
      rw [ht]
      exact List.mem_append_left _ hm
    obtain ⟨hreplied, hevents, hs⟩ :=
      (yields_requests doubles dispatchRead hmem hshows).of_ok hmap
    have haccepted := hreplied.accepted
    rw [hevents] at haccepted
    have hagree := HashState.accepts_iff_agree (HashState.initial hk) rfl haccepted hne
    have hone := yields_request doubles dispatchRead
      (hr request (by rw [ht]; exact List.mem_append_right _ List.mem_cons_self)) hs
    rw [he] at hone
    have hsnoc : eventsOn key (earlier ++ [request]) = eventsOn key earlier ++ [e] := by
      unfold eventsOn
      rw [List.filterMap_append, List.filterMap_cons, he]
      rfl
    rw [hsnoc]
    change _ ↔ ¬Agree ((HashState.initial hk).opens _)
    rw [← hagree]
    have hfails : ∀ fault, Fails (HashState.run (.initial hk) (eventsOn key earlier)) (some e)
        fault → Refuses (HashState.run (.initial hk) (eventsOn key earlier)) e fault := by
      intro fault hf
      cases e with
      | wipe => exact absurd rfl hne
      | set field => exact hf
      | del fields => exact hf
    constructor
    · intro hfault
      exact (hfails _ (hone.of_error hfault)).mp rfl
    · intro hnot
      rcases hrun : dispatchOne doubles dispatchRead request s with fault | ⟨reply, s'⟩
      · rw [(hfails _ (hone.of_error hrun)).mpr hnot]
      · exact absurd ((hone.of_ok hrun).1 hne).1 hnot

/-- A request that packs nothing, and is a command on versioned hashes or a removal. -/
theorem onlyVersions_of_flat {key : Bytes} {request : RedisRequest}
    (hp : Transaction.deserialize request = .ok none)
    (hc : getCommand request ∈ [RedisCommand.VHSET, .VHDEL, .DEL, .FLUSHALL]) :
    OnlyVersions key request := by
  constructor
  · intro inner hw _ _
    cases hw with
    | self => exact .inl hc
    | packed ho _ _ =>
      rw [hp] at ho
      cases ho
  · intro ht
    rw [ht] at hc
    exact absurd hc (by decide)

theorem two_fields_in_a_batch_are_one_version :
    ∃ (tx : Transaction) (reply : Bytes) (m' : Machine) (replies : List Bytes) (s : StagingArea),
      tx.requests = [[ascii "VHSET", ascii "k", ascii "f", ascii "v"],
        [ascii "VHSET", ascii "k", ascii "g", ascii "w"]] ∧
      dispatchTransaction wholeDoubles readsNothing ⟨∅, [], 0⟩ tx 0 = .ok (reply, m') ∧
      CountsOnce (versionOf ∅ (ascii "k")) (hasField ∅ (ascii "k"))
        (answersOn (ascii "k") tx.requests replies) (revisionOf s (ascii "k"))
        (versionOf m'.store (ascii "k")) := by
  let tx := Transaction.ofRequests [[ascii "VHSET", ascii "k", ascii "f", ascii "v"],
    [ascii "VHSET", ascii "k", ascii "g", ascii "w"]] false (by decide +kernel)
  obtain ⟨hcommands, hevents, hfirst, hok⟩ :
      (∀ request ∈ tx.requests,
        getCommand request ∈ [RedisCommand.VHSET, .VHDEL, .DEL, .FLUSHALL]) ∧
      eventsOn (ascii "k") tx.requests = [.set (ascii "f"), .set (ascii "g")] ∧
      ((HashEvent.set (ascii "f")).changes (hasField ∅ (ascii "k")) = true ∧
        ((versionOf ∅ (ascii "k")).getD 0).toNat + 1 < 2 ^ 64) ∧
      (dispatchTransaction wholeDoubles readsNothing ⟨∅, [], 0⟩ tx 0).map (fun _ => ()) =
        .ok () := by decide +kernel
  have honly : ∀ request ∈ tx.requests, OnlyVersions (ascii "k") request := by
    intro request hm
    refine onlyVersions_of_flat ?_ (hcommands request hm)
    rcases List.mem_cons.mp hm with rfl | hm
    · rfl
    · rw [List.mem_singleton.mp hm]
      rfl
  have hall := @a_batch_is_one_version_when_its_first_command_changes_the_hash wholeDoubles readsNothing
    ⟨∅, [], 0⟩ (ascii "k") tx (fun _ => rfl) honly
  obtain ⟨⟨reply, m'⟩, hrun, -⟩ := exists_of_map_ok hok
  obtain ⟨replies, s, -, -, hiff⟩ := hall.1 0 reply m' (by rw [hevents]; decide) hrun
  refine ⟨tx, reply, m', replies, s, rfl, hrun, hiff.mpr ?_⟩
  rw [hevents]
  exact .inl hfirst

/-- A batch that deletes a missing field first does not count, though it stores another one;
and one that removes the hash in between fails. -/
theorem a_batch_that_first_deletes_nothing_does_not_count :
    ∃ (tx tx' : Transaction) (reply : Bytes) (m' : Machine),
      tx.requests = [[ascii "VHDEL", ascii "k", ascii "g"],
        [ascii "VHSET", ascii "k", ascii "f", ascii "v"]] ∧
      dispatchTransaction wholeDoubles readsNothing ⟨∅, [], 0⟩ tx 0 = .ok (reply, m') ∧
      hasField m'.store (ascii "k") (ascii "f") = true ∧
      versionOf m'.store (ascii "k") = some 0 ∧
      tx'.requests = [[ascii "VHSET", ascii "k", ascii "f", ascii "v"], [ascii "DEL", ascii "k"],
        [ascii "VHDEL", ascii "k", ascii "f"]] ∧
      dispatchTransaction wholeDoubles readsNothing ⟨∅, [], 0⟩ tx' 0 =
        .error (.assertion "currentRevision == rev") := by
  let tx := Transaction.ofRequests [[ascii "VHDEL", ascii "k", ascii "g"],
    [ascii "VHSET", ascii "k", ascii "f", ascii "v"]] false (by decide +kernel)
  let tx' := Transaction.ofRequests [[ascii "VHSET", ascii "k", ascii "f", ascii "v"],
    [ascii "DEL", ascii "k"], [ascii "VHDEL", ascii "k", ascii "f"]] false (by decide +kernel)
  obtain ⟨hok, hfails⟩ :
      (dispatchTransaction wholeDoubles readsNothing ⟨∅, [], 0⟩ tx 0).map (fun r =>
        (hasField r.2.store (ascii "k") (ascii "f"), versionOf r.2.store (ascii "k"))) =
          .ok (true, some 0) ∧
      (dispatchTransaction wholeDoubles readsNothing ⟨∅, [], 0⟩ tx' 0).map (fun _ => ()) =
        .error (.assertion "currentRevision == rev") := by decide +kernel
  obtain ⟨⟨reply, m'⟩, hrun, hshows⟩ := exists_of_map_ok hok
  obtain ⟨hfield, hversion⟩ := Prod.mk.inj hshows
  exact ⟨tx, tx', reply, m', rfl, hrun, hfield, hversion, rfl, eq_error_of_map hfails⟩

end quarkdb
