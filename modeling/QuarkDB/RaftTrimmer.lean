-- The trimmer: the thread that removes the old end of the journal, the blocks
-- with which others hold it back, and the configuration that it reads in every
-- iteration. What it removes is not needed any more as long as the two sums of
-- the iteration stay within 64 bits and the step is positive.
import QuarkDB.Endian
import QuarkDB.WriteTracker

namespace quarkdb

/-! ## The configuration -/

structure TrimmingConfig where
  /-- Minimum number of journal entries to keep at all times. -/
  keepAtLeast : Int
  step : Int
  deriving DecidableEq

/-- `ParseUtils::parseIntegerList`. -/
def parseIntegerList (buffer : Bytes) (separator : UInt8) : Option (List Int) :=
  (split buffer separator).mapM parseInt64

/-- `TrimmingConfig::parse`. -/
def TrimmingConfig.parse (str : Bytes) : Option TrimmingConfig :=
  match parseIntegerList str 58 with
  | some [keepAtLeast, step] => some { keepAtLeast, step }
  | _ => none

/-- `RaftConfig::getTrimmingConfig`, from what is stored under `raft.trimming`. A value that can
not be parsed is only logged there, and what is returned was never set; nothing follows it here. -/
def getTrimmingConfig : Option Bytes → Except Fault TrimmingConfig
  | none => .ok { keepAtLeast := 50000000, step := 200000 }
  | some trimConfig =>
    match TrimmingConfig.parse trimConfig with
    | some config => .ok config
    | none => .error (.thrown "Unable to parse trimming configuration key: ")

/-- A number of a list that is read is neither of the bounds. -/
theorem parseIntegerList_bounds {buffer : Bytes} {separator : UInt8} {results : List Int}
    (h : parseIntegerList buffer separator = some results) {n : Int} (hn : n ∈ results) :
    -2 ^ 63 < n ∧ n < 2 ^ 63 - 1 := by
  unfold parseIntegerList at h
  generalize split buffer separator = items at h
  induction items generalizing results with
  | nil =>
    simp only [List.mapM_nil, Option.pure_def, Option.some.injEq] at h
    subst h
    cases hn
  | cons item items ih =>
    simp only [List.mapM_cons, Option.pure_def, Option.bind_eq_bind, Option.bind_eq_some_iff,
      Option.some.injEq] at h
    obtain ⟨value, hv, rest, hr, rfl⟩ := h
    rcases List.mem_cons.mp hn with rfl | hn
    · exact parseInt64_bounds hv
    · exact ih hn hr

theorem getTrimmingConfig_bounds {stored : Option Bytes} {config : TrimmingConfig}
    (h : getTrimmingConfig stored = .ok config) : -2 ^ 63 < config.keepAtLeast := by
  cases stored with
  | none =>
    cases h
    decide
  | some trimConfig =>
    simp only [getTrimmingConfig, TrimmingConfig.parse] at h
    split at h
    · rename_i hp
      split at hp
      · rename_i hl
        cases hp
        cases h
        exact (parseIntegerList_bounds hl (by simp)).1
      · cases hp
    · cases h

/-! ## The trimmer and its surroundings -/

/-- `std::numeric_limits<LogIndex>::max()`, at which a block is inactive. -/
def maxIndex : Int := 2 ^ 63 - 1

structure RaftTrimmingBlock where
  preserveIndex : Int
  registered : Bool
  /-- A call of `enforce` has stored the index, and has the registration to do. -/
  enforcing : Bool

/-- A block that preserves something, other than one whose registration is on its way. -/
def RaftTrimmingBlock.Live (b : RaftTrimmingBlock) : Prop :=
  b.preserveIndex ≠ maxIndex ∧ (b.enforcing = false ∨ b.registered = true)

/-- What an iteration of the trimmer has read. -/
structure Iteration where
  start : Int
  size : Int
  config : TrimmingConfig
  threshold : Int
  /-- The blocks when `canTrimUntil` took its lock, for the record. -/
  created : Nat → Option RaftTrimmingBlock
  /-- What it read of each block, for the record. -/
  read : List (Nat × Int)

/-- Where `RaftTrimmer::main` is, named after what comes next. -/
inductive Trimming
  | getLogStart
  | getLogSize (start : Int)
  | getTrimmingConfig (start size : Int)
  | lock (it : Iteration)
  /-- `canTrimUntil` holds its lock, with these blocks to read. -/
  | canTrimUntil (it : Iteration) (unread : List Nat)
  | getCommitIndex (it : Iteration)
  | getLastApplied (it : Iteration)
  | trimUntil (it : Iteration)

structure TrimmedNode where
  journal : RaftJournal
  lastApplied : Int
  /-- What is stored under `raft.trimming`. -/
  config : Option Bytes
  created : Nat → Option RaftTrimmingBlock
  /-- The blocks that are registered with the trimmer. -/
  blocks : List Nat
  phase : Trimming

/-- One step of one thread. -/
inductive TrimStep
  | append (index : Int) (entry : RaftEntry)
  | setCommitIndex (index : Int)
  /-- The state machine applies the next entry. -/
  | apply
  | configSet (value : Option Bytes)
  /-- The constructor of a block, up to the registration. -/
  | create (block : Nat) (preserve : Int)
  /-- `enforce`, up to the registration. The limit of `lift` is the maximum. -/
  | enforce (block : Nat) (limit : Int)
  /-- The registration at the end of `enforce`. -/
  | registerChange (block : Nat)
  /-- The end of the destructor of a block, which it lifted before. -/
  | free (block : Nat)
  /-- The trimmer goes on. -/
  | main

namespace TrimmedNode

open TrackedNode (orDie)
open Endian (signed)

def setBlock (n : TrimmedNode) (block : Nat) (b : Option RaftTrimmingBlock) : TrimmedNode :=
  { n with created := fun k => if k = block then b else n.created k }

/-- Is the lock of the trimmer free? -/
def mtxFree (n : TrimmedNode) : Bool :=
  match n.phase with
  | .canTrimUntil _ _ => false
  | _ => true

/-- `RaftTrimmer::registerChange`. -/
def registerChange (blocks : List Nat) (block : Nat) (preserveIndex : Int) : List Nat :=
  if preserveIndex = maxIndex then blocks.filter (· ≠ block) else blocks.insert block

/-- `enforce` registers its change, and notes that it did. -/
def register (n : TrimmedNode) (block : Nat) (b : RaftTrimmingBlock) (registered : Bool) :
    TrimmedNode :=
  { n.setBlock block (some { b with registered, enforcing := false }) with
    blocks := registerChange n.blocks block b.preserveIndex }

/-- `RaftTrimmer::main`. An iteration that waits starts again from the top. -/
def main (n : TrimmedNode) : Option TrimmedNode :=
  match n.phase with
  | .getLogStart => some { n with phase := .getLogSize n.journal.logStart }
  | .getLogSize start => some { n with phase := .getTrimmingConfig start n.journal.logSize }
  | .getTrimmingConfig start size => do
    let config ← orDie (quarkdb.getTrimmingConfig n.config)
    if size - start ≤ signed (config.keepAtLeast + config.step) then
      return { n with phase := .getLogStart }
    else
      return { n with phase := .lock {
        start, size, config
        threshold := signed (start + config.step), created := fun _ => none, read := [] } }
  | .lock it => some { n with phase := .canTrimUntil { it with created := n.created } n.blocks }
  | .canTrimUntil it [] => some { n with phase := .getCommitIndex it }
  | .canTrimUntil it (block :: unread) => do
    let b ← n.created block
    if b.preserveIndex ≤ it.threshold then return { n with phase := .getLogStart }
    else
      return { n with
        phase := .canTrimUntil { it with read := (block, b.preserveIndex) :: it.read } unread }
  | .getCommitIndex it =>
    if n.journal.commitIndex ≤ it.threshold then some { n with phase := .getLogStart }
    else some { n with phase := .getLastApplied it }
  | .getLastApplied it =>
    if n.lastApplied ≤ it.threshold then some { n with phase := .getLogStart }
    else some { n with phase := .trimUntil it }
  | .trimUntil it => do
    let _ ← orDie ((RaftJournal.trimUntil it.threshold).on n.journal).1
    return { n with
      journal := ((RaftJournal.trimUntil it.threshold).on n.journal).2, phase := .getLogStart }

/-- What a step makes of the node: nothing where a lock is taken or a block is not
there, and `none` when it throws and the process ends. -/
def next (n : TrimmedNode) : TrimStep → Option TrimmedNode
  | .append index entry => do
    let _ ← orDie ((RaftJournal.append index entry).on n.journal).1
    return { n with journal := ((RaftJournal.append index entry).on n.journal).2 }
  | .setCommitIndex index => do
    let _ ← orDie ((RaftJournal.setCommitIndex index).on n.journal).1
    return { n with journal := ((RaftJournal.setCommitIndex index).on n.journal).2 }
  | .apply => some { n with lastApplied := n.lastApplied + 1 }
  | .configSet value => some { n with config := value }
  | .create block preserve =>
    match n.created block with
    | none =>
      some (n.setBlock block
        (some { preserveIndex := preserve, registered := false, enforcing := true }))
    | some _ => some n
  | .enforce block limit =>
    match n.created block with
    | none => some n
    | some b =>
      if b.enforcing then some n
      else some (n.setBlock block (some { b with preserveIndex := limit, enforcing := true }))
  | .registerChange block =>
    match n.created block with
    | none => some n
    | some b =>
      if !b.enforcing then some n
      else if b.registered ∧ b.preserveIndex = maxIndex then
        if n.mtxFree then some (n.register block b false) else some n
      else if !b.registered ∧ b.preserveIndex ≠ maxIndex then
        if n.mtxFree then some (n.register block b true) else some n
      else some (n.setBlock block (some { b with enforcing := false }))
  | .free block =>
    match n.created block with
    | none => some n
    | some b =>
      if b.enforcing ∨ b.preserveIndex ≠ maxIndex then some n else some (n.setBlock block none)
  | .main => n.main

def runAll (n : TrimmedNode) : List TrimStep → Option TrimmedNode
  | [] => some n
  | x :: xs => n.next x >>= fun n => n.runAll xs

/-- A node that just started. -/
def startOn (journal : RaftJournal) (lastApplied : Int) (config : Option Bytes) : TrimmedNode :=
  { journal, lastApplied, config, created := fun _ => none, blocks := [], phase := .getLogStart }

/-! ## The condition -/

/-- The step makes progress, and the two sums of an iteration stay within 64 bits. -/
structure Fits (start : Int) (config : TrimmingConfig) : Prop where
  step_pos : 0 < config.step
  keep_fits : config.keepAtLeast + config.step < 2 ^ 63
  threshold_fits : start + config.step < 2 ^ 63

instance decidableFits (start : Int) (config : TrimmingConfig) : Decidable (Fits start config) :=
  decidable_of_iff (0 < config.step ∧ config.keepAtLeast + config.step < 2 ^ 63 ∧
    start + config.step < 2 ^ 63)
    ⟨fun h => ⟨h.1, h.2.1, h.2.2⟩, fun h => ⟨h.step_pos, h.keep_fits, h.threshold_fits⟩⟩

/-- An iteration that is about to get past its comparison of sizes fits. -/
def Sane (n : TrimmedNode) : Prop :=
  ∀ start size config, n.phase = .getTrimmingConfig start size →
    quarkdb.getTrimmingConfig n.config = .ok config →
    signed (config.keepAtLeast + config.step) < size - start → Fits start config

/-! ## The journal keeps its start -/

theorem logStart_append (j : RaftJournal) (index : Int) (entry : RaftEntry)
    (h : RaftJournal.Good j) : ((RaftJournal.append index entry).on j).2.logStart = j.logStart := by
  unfold RaftJournal.append
  rcases RaftJournal.appendNoLock_cases h.commit_lt_size (RaftJournal.size_nonneg h) index entry with
    ⟨r, hr, -⟩ | ⟨-, -, -, j', ht, hr⟩
  · rw [hr]
  · rw [hr]
    exact (RaftJournal.takes_frame ht).2.2.1

theorem logStart_setCommitIndex (j : RaftJournal) (index : Int) :
    ((RaftJournal.setCommitIndex index).on j).2.logStart = j.logStart := by
  rw [RaftJournal.setCommitIndex_on]
  split_ifs <;> rfl

/-! ## The invariant -/

/-- What an iteration knows once it compared the sizes, with these blocks left to read. -/
structure Cleared (n : TrimmedNode) (it : Iteration) (unread : List Nat) : Prop where
  start_eq : it.start = n.journal.logStart
  size_le : it.size ≤ n.journal.logSize
  fits : Fits it.start it.config
  room : it.config.keepAtLeast + it.config.step < it.size - it.start
  threshold_eq : it.threshold = it.start + it.config.step
  read : ∀ block b, it.created block = some b → b.Live →
    block ∈ unread ∨ ∃ v, (block, v) ∈ it.read ∧ it.threshold < v

def Sound (n : TrimmedNode) : Trimming → Prop
  | .getLogStart => True
  | .getLogSize start => start = n.journal.logStart
  | .getTrimmingConfig start size => start = n.journal.logStart ∧ size ≤ n.journal.logSize
  | .lock it => Cleared n it []
  | .canTrimUntil it unread => Cleared n it unread ∧ ∀ block ∈ unread, block ∈ n.blocks
  | .getCommitIndex it => Cleared n it []
  | .getLastApplied it => Cleared n it [] ∧ it.threshold < n.journal.commitIndex
  | .trimUntil it =>
    Cleared n it [] ∧ it.threshold < n.journal.commitIndex ∧ it.threshold < n.lastApplied

/-- A block is registered when it says so, which it does when it preserves something
and no call is on its way. -/
structure Registered (n : TrimmedNode) : Prop where
  mem_iff : ∀ block b, n.created block = some b → (b.registered = true ↔ block ∈ n.blocks)
  settled : ∀ block b, n.created block = some b → b.enforcing = false →
    (b.registered = true ↔ b.preserveIndex ≠ maxIndex)
  exists_of_mem : ∀ block ∈ n.blocks, ∃ b, n.created block = some b

structure Watched (n : TrimmedNode) : Prop where
  good : RaftJournal.Good n.journal
  registered : Registered n
  sound : Sound n n.phase

theorem mem_of_live {n : TrimmedNode} (h : Registered n) {block : Nat} {b : RaftTrimmingBlock}
    (hb : n.created block = some b) (hl : b.Live) : block ∈ n.blocks := by
  obtain ⟨hi, he | hr⟩ := hl
  · exact (h.mem_iff block b hb).mp ((h.settled block b hb he).mpr hi)
  · exact (h.mem_iff block b hb).mp hr

/-- What else moves, moves upwards, and an iteration loses nothing by it. -/
theorem sound_of_le {n m : TrimmedNode} {phase : Trimming} (h : Sound n phase)
    (hstart : m.journal.logStart = n.journal.logStart)
    (hsize : n.journal.logSize ≤ m.journal.logSize)
    (hcommit : n.journal.commitIndex ≤ m.journal.commitIndex)
    (happlied : n.lastApplied ≤ m.lastApplied)
    (hblocks : ∀ it unread, phase = .canTrimUntil it unread → m.blocks = n.blocks) :
    Sound m phase := by
  have hcleared : ∀ it unread, Cleared n it unread → Cleared m it unread := by
    intro it unread hc
    obtain ⟨h1, h2, h3, h4, h5, h6⟩ := hc
    exact ⟨by rw [hstart]; exact h1, le_trans h2 hsize, h3, h4, h5, h6⟩
  cases phase with
  | getLogStart => trivial
  | getLogSize start => exact Eq.trans h hstart.symm
  | getTrimmingConfig start size => exact ⟨h.1.trans hstart.symm, le_trans h.2 hsize⟩
  | lock it => exact hcleared it [] h
  | canTrimUntil it unread =>
    refine ⟨hcleared it unread h.1, ?_⟩
    rw [hblocks it unread rfl]
    exact h.2
  | getCommitIndex it => exact hcleared it [] h
  | getLastApplied it => exact ⟨hcleared it [] h.1, lt_of_lt_of_le h.2 hcommit⟩
  | trimUntil it =>
    exact ⟨hcleared it [] h.1, lt_of_lt_of_le h.2.1 hcommit, lt_of_lt_of_le h.2.2 happlied⟩

/-! ## The steps of the others -/

theorem watched_journal {n : TrimmedNode} (h : Watched n) {j : RaftJournal}
    (hj : TrackedNode.Grows n.journal j) (hstart : j.logStart = n.journal.logStart) :
    Watched { n with journal := j } :=
  ⟨hj.good, ⟨h.registered.mem_iff, h.registered.settled, h.registered.exists_of_mem⟩,
    sound_of_le h.sound hstart hj.size_le hj.commit_le (le_refl _) fun _ _ _ => rfl⟩

/-- A block changes and its registration stays as it is. -/
theorem watched_setBlock {n : TrimmedNode} (h : Watched n) {block : Nat}
    {b : Option RaftTrimmingBlock}
    (hmem : ∀ b', b = some b' → (b'.registered = true ↔ block ∈ n.blocks))
    (hsettled : ∀ b', b = some b' → b'.enforcing = false →
      (b'.registered = true ↔ b'.preserveIndex ≠ maxIndex))
    (hnone : b = none → block ∉ n.blocks) : Watched (n.setBlock block b) := by
  refine ⟨h.good, ⟨?_, ?_, ?_⟩,
    sound_of_le h.sound rfl (le_refl _) (le_refl _) (le_refl _) fun _ _ _ => rfl⟩
  · intro k b' hb'
    dsimp only [setBlock] at hb' ⊢
    split_ifs at hb' with hk
    · rw [hk]
      exact hmem b' hb'
    · exact h.registered.mem_iff k b' hb'
  · intro k b' hb'
    dsimp only [setBlock] at hb'
    split_ifs at hb' with hk
    · exact hsettled b' hb'
    · exact h.registered.settled k b' hb'
  · intro k hk
    dsimp only [setBlock] at hk ⊢
    split_ifs with hkb
    · cases hb : b with
      | none => exact absurd (hkb ▸ hk) (hnone hb)
      | some b' => exact ⟨b', rfl⟩
    · exact h.registered.exists_of_mem k hk

theorem mem_registerChange {blocks : List Nat} {block k : Nat} {preserveIndex : Int} :
    k ∈ registerChange blocks block preserveIndex ↔
      if k = block then preserveIndex ≠ maxIndex else k ∈ blocks := by
  unfold registerChange
  by_cases hp : preserveIndex = maxIndex <;> by_cases hk : k = block <;> simp [hp, hk]

theorem watched_register {n : TrimmedNode} (h : Watched n) {block : Nat} {b : RaftTrimmingBlock}
    {registered : Bool} (hfree : n.mtxFree = true)
    (hr : registered = true ↔ b.preserveIndex ≠ maxIndex) :
    Watched (n.register block b registered) := by
  refine ⟨h.good, ⟨?_, ?_, ?_⟩,
    sound_of_le h.sound rfl (le_refl _) (le_refl _) (le_refl _) ?_⟩
  · intro k b' hb'
    dsimp only [register, setBlock] at hb' ⊢
    rw [mem_registerChange]
    split_ifs at hb' ⊢ with hk
    · cases hb'
      exact hr
    · exact h.registered.mem_iff k b' hb'
  · intro k b' hb' he
    dsimp only [register, setBlock] at hb'
    split_ifs at hb' with hk
    · cases hb'
      exact hr
    · exact h.registered.settled k b' hb' he
  · intro k hk
    dsimp only [register, setBlock] at hk ⊢
    rw [mem_registerChange] at hk
    split_ifs at hk ⊢ with hkb
    · exact ⟨_, rfl⟩
    · exact h.registered.exists_of_mem k hk
  · intro it unread hp
    have hp : n.phase = .canTrimUntil it unread := hp
    rw [mtxFree, hp] at hfree
    cases hfree

theorem watched_create {n : TrimmedNode} (h : Watched n) {block : Nat}
    (hb : n.created block = none) (preserve : Int) :
    Watched (n.setBlock block
      (some { preserveIndex := preserve, registered := false, enforcing := true })) := by
  have hmem : block ∉ n.blocks := by
    intro hm
    obtain ⟨b, hb'⟩ := h.registered.exists_of_mem block hm
    rw [hb] at hb'
    cases hb'
  apply watched_setBlock h
  · intro b' hb'
    cases hb'
    simp [hmem]
  · intro b' hb' he
    cases hb'
    cases he
  · intro hn
    cases hn

theorem watched_enforce {n : TrimmedNode} (h : Watched n) {block : Nat} {b : RaftTrimmingBlock}
    (hb : n.created block = some b) (limit : Int) :
    Watched (n.setBlock block (some { b with preserveIndex := limit, enforcing := true })) := by
  apply watched_setBlock h
  · intro b' hb'
    cases hb'
    exact h.registered.mem_iff block b hb
  · intro b' hb' he
    cases hb'
    cases he
  · intro hn
    cases hn

theorem watched_registerChange {n m : TrimmedNode} (h : Watched n) {block : Nat}
    (hm : n.next (.registerChange block) = some m) : Watched m := by
  cases hb : n.created block with
  | none =>
    simp only [next, hb] at hm
    cases hm
    exact h
  | some b =>
    simp only [next, hb] at hm
    split_ifs at hm with he h1 hf h2 hf
    · cases hm
      exact h
    · cases hm
      exact watched_register h hf (by simp [h1.2])
    · cases hm
      exact h
    · cases hm
      exact watched_register h hf (by simp [h2.2])
    · cases hm
      exact h
    · cases hm
      have hr : b.registered = true ↔ b.preserveIndex ≠ maxIndex := by
        cases hreg : b.registered <;> simp [hreg] at h1 h2 ⊢
        · exact h2
        · exact h1
      apply watched_setBlock h
      · intro b' hb'
        cases hb'
        exact h.registered.mem_iff block b hb
      · intro b' hb' _
        cases hb'
        exact hr
      · intro hn
        cases hn

theorem watched_free {n : TrimmedNode} (h : Watched n) {block : Nat} {b : RaftTrimmingBlock}
    (hb : n.created block = some b) (he : b.enforcing = false) (hp : b.preserveIndex = maxIndex) :
    Watched (n.setBlock block none) := by
  have hmem : block ∉ n.blocks := by
    rw [← h.registered.mem_iff block b hb, h.registered.settled block b hb he]
    simp [hp]
  apply watched_setBlock h
  · intro b' hb'
    cases hb'
  · intro b' hb'
    cases hb'
  · intro _
    exact hmem

/-! ## The steps of the trimmer -/

/-- The comparison of sizes is the one of the unbounded sums when the iteration fits. -/
theorem cleared_of_fits {n : TrimmedNode} {start size : Int} {config : TrimmingConfig}
    (h0 : 0 ≤ start) (hstart : start = n.journal.logStart) (hsize : size ≤ n.journal.logSize)
    (hk : -2 ^ 63 < config.keepAtLeast) (hf : Fits start config)
    (hroom : signed (config.keepAtLeast + config.step) < size - start) :
    Cleared n { start, size, config, threshold := signed (start + config.step),
                created := fun _ => none, read := [] } [] := by
  obtain ⟨h1, h2, h3⟩ := hf
  rw [Endian.signed_of_fits (by omega) h2] at hroom
  exact {
    start_eq := hstart
    size_le := hsize
    fits := ⟨h1, h2, h3⟩
    room := hroom
    threshold_eq := Endian.signed_of_fits (by omega) h3
    read := by
      intro _ _ hb
      cases hb }

/-- Once the lock is taken the live blocks are among those to read. -/
theorem cleared_lock {n : TrimmedNode} (h : Watched n) {it : Iteration} (hc : Cleared n it []) :
    Cleared n { it with created := n.created } n.blocks :=
  ⟨hc.start_eq, hc.size_le, hc.fits, hc.room, hc.threshold_eq,
    fun _ _ hb hl => .inl (mem_of_live h.registered hb hl)⟩

theorem cleared_read {n : TrimmedNode} {it : Iteration} {block : Nat} {unread : List Nat}
    (hc : Cleared n it (block :: unread)) {preserveIndex : Int} (hp : it.threshold < preserveIndex) :
    Cleared n { it with read := (block, preserveIndex) :: it.read } unread := by
  refine ⟨hc.start_eq, hc.size_le, hc.fits, hc.room, hc.threshold_eq, ?_⟩
  intro k b hb hl
  rcases hc.read k b hb hl with hk | ⟨v, hv, hlt⟩
  · rcases List.mem_cons.mp hk with rfl | hk
    · exact .inr ⟨preserveIndex, List.mem_cons_self, hp⟩
    · exact .inl hk
  · exact .inr ⟨v, List.mem_cons_of_mem _ hv, hlt⟩

/-- A phase of the trimmer other than `trimUntil` changes nothing but the phase. -/
theorem watched_phase {n : TrimmedNode} (h : Watched n) (phase : Trimming) (hs : Sound n phase) :
    Watched { n with phase } :=
  ⟨h.good, ⟨h.registered.mem_iff, h.registered.settled, h.registered.exists_of_mem⟩,
    sound_of_le hs rfl (le_refl _) (le_refl _) (le_refl _) fun _ _ _ => rfl⟩

/-- The call of `trimUntil` goes through: what it removes is committed. -/
theorem trimUntil_of_cleared {n : TrimmedNode} (hg : RaftJournal.Good n.journal) {it : Iteration}
    (hc : Cleared n it []) (hcommit : it.threshold < n.journal.commitIndex) :
    (RaftJournal.trimUntil it.threshold).on n.journal = (.ok (), { n.journal with
      db := { n.journal.db with
        entries := fun i =>
          if n.journal.logStart ≤ i ∧ i < it.threshold then none else n.journal.db.entries i
        logStart := it.threshold }
      logStart := it.threshold }) := by
  have hlt : n.journal.logStart < it.threshold := by
    rw [hc.threshold_eq, ← hc.start_eq]
    have := hc.fits.step_pos
    omega
  have := hg.commit_lt_size
  rw [RaftJournal.trimUntil_on, if_neg (by omega), if_neg (by omega), if_neg (by omega)]

theorem watched_main {n m : TrimmedNode} (h : Watched n) (hs : Sane n) (hm : n.main = some m) :
    Watched m := by
  have hsound := h.sound
  unfold main at hm
  cases hp : n.phase with
  | getLogStart =>
    rw [hp] at hm
    cases hm
    exact watched_phase h (.getLogSize _) rfl
  | getLogSize start =>
    rw [hp] at hm hsound
    cases hm
    exact watched_phase h (.getTrimmingConfig _ _) ⟨hsound, le_refl _⟩
  | getTrimmingConfig start size =>
    rw [hp] at hm hsound
    simp only [Option.bind_eq_bind, Option.bind_eq_some_iff] at hm
    obtain ⟨config, hconfig, hm⟩ := hm
    have hconfig := TrackedNode.orDie_some hconfig
    split_ifs at hm with hroom
    · cases hm
      exact watched_phase h (.getLogStart) trivial
    · cases hm
      have h0 : 0 ≤ start := by
        rw [hsound.1]
        exact h.good.start_nonneg
      have hfits := hs start size config hp hconfig (not_le.mp hroom)
      exact watched_phase h (.lock _) (cleared_of_fits h0 hsound.1 hsound.2
        (getTrimmingConfig_bounds hconfig) hfits (not_le.mp hroom))
  | lock it =>
    rw [hp] at hm hsound
    cases hm
    exact watched_phase h (.canTrimUntil _ _)
      ⟨cleared_lock h hsound, fun block hb => hb⟩
  | canTrimUntil it unread =>
    rw [hp] at hm hsound
    cases unread with
    | nil =>
      cases hm
      exact watched_phase h (.getCommitIndex _) hsound.1
    | cons block unread =>
      simp only [Option.bind_eq_bind, Option.bind_eq_some_iff] at hm
      obtain ⟨b, -, hm⟩ := hm
      split_ifs at hm with hlt
      · cases hm
        exact watched_phase h (.getLogStart) trivial
      · cases hm
        exact watched_phase h (.canTrimUntil _ _) ⟨cleared_read hsound.1 (not_le.mp hlt),
          fun k hk => hsound.2 k (List.mem_cons_of_mem _ hk)⟩
  | getCommitIndex it =>
    rw [hp] at hm hsound
    dsimp only at hm
    split_ifs at hm with hlt
    · cases hm
      exact watched_phase h (.getLogStart) trivial
    · cases hm
      exact watched_phase h (.getLastApplied _) ⟨hsound, not_le.mp hlt⟩
  | getLastApplied it =>
    rw [hp] at hm hsound
    dsimp only at hm
    split_ifs at hm with hlt
    · cases hm
      exact watched_phase h (.getLogStart) trivial
    · cases hm
      exact watched_phase h (.trimUntil _) ⟨hsound.1, hsound.2, not_le.mp hlt⟩
  | trimUntil it =>
    rw [hp] at hm
    simp only [Option.bind_eq_bind, Option.bind_eq_some_iff] at hm
    obtain ⟨-, -, hm⟩ := hm
    cases hm
    exact ⟨(RaftJournal.good_trimUntil h.good it.threshold).1,
      ⟨h.registered.mem_iff, h.registered.settled, h.registered.exists_of_mem⟩, trivial⟩

/-! ## Runs -/

theorem watched_next {n m : TrimmedNode} (h : Watched n) (hs : Sane n) {x : TrimStep}
    (hm : n.next x = some m) : Watched m := by
  cases x with
  | append index entry =>
    simp only [next, Option.bind_eq_bind, Option.bind_eq_some_iff] at hm
    obtain ⟨-, -, hm⟩ := hm
    cases hm
    exact watched_journal h (TrackedNode.grows_append h.good index entry)
      (logStart_append n.journal index entry h.good)
  | setCommitIndex index =>
    simp only [next, Option.bind_eq_bind, Option.bind_eq_some_iff] at hm
    obtain ⟨-, -, hm⟩ := hm
    cases hm
    exact watched_journal h (TrackedNode.grows_setCommitIndex h.good index)
      (logStart_setCommitIndex n.journal index)
  | apply =>
    simp only [next, Option.some.injEq] at hm
    subst hm
    exact ⟨h.good, ⟨h.registered.mem_iff, h.registered.settled, h.registered.exists_of_mem⟩,
      sound_of_le h.sound rfl (le_refl _) (le_refl _) (Int.le_add_one (le_refl _))
        fun _ _ _ => rfl⟩
  | configSet value =>
    simp only [next, Option.some.injEq] at hm
    subst hm
    exact ⟨h.good, ⟨h.registered.mem_iff, h.registered.settled, h.registered.exists_of_mem⟩,
      sound_of_le h.sound rfl (le_refl _) (le_refl _) (le_refl _) fun _ _ _ => rfl⟩
  | create block preserve =>
    cases hb : n.created block with
    | none =>
      simp only [next, hb, Option.some.injEq] at hm
      subst hm
      exact watched_create h hb preserve
    | some b =>
      simp only [next, hb, Option.some.injEq] at hm
      subst hm
      exact h
  | enforce block limit =>
    cases hb : n.created block with
    | none =>
      simp only [next, hb, Option.some.injEq] at hm
      subst hm
      exact h
    | some b =>
      simp only [next, hb] at hm
      split_ifs at hm
      · cases hm
        exact h
      · cases hm
        exact watched_enforce h hb limit
  | registerChange block => exact watched_registerChange h hm
  | free block =>
    cases hb : n.created block with
    | none =>
      simp only [next, hb, Option.some.injEq] at hm
      subst hm
      exact h
    | some b =>
      simp only [next, hb] at hm
      split_ifs at hm with hg
      · cases hm
        exact h
      · cases hm
        rw [not_or, not_not] at hg
        exact watched_free h hb (Bool.eq_false_iff.mpr hg.1) hg.2
  | main => exact watched_main h hs hm

theorem watched_runAll {n m : TrimmedNode} (h : Watched n) {xs : List TrimStep}
    (hs : ∀ before, before <+: xs → ∀ k, n.runAll before = some k → Sane k)
    (hm : n.runAll xs = some m) : Watched m := by
  induction xs generalizing n with
  | nil =>
    cases hm
    exact h
  | cons x xs ih =>
    obtain ⟨k, hk, hm⟩ := Option.bind_eq_some_iff.mp hm
    have hsn : Sane n := hs [] List.nil_prefix n rfl
    apply ih (watched_next h hsn hk) _ hm
    intro before hb k' hk'
    apply hs (x :: before) (List.cons_prefix_cons.mpr ⟨rfl, hb⟩) k'
    rw [runAll, hk]
    exact hk'

theorem watched_startOn {journal : RaftJournal} (h : RaftJournal.Good journal)
    (lastApplied : Int) (config : Option Bytes) : Watched (startOn journal lastApplied config) := by
  refine ⟨h, ⟨?_, ?_, ?_⟩, trivial⟩
  · intro block b hb
    cases hb
  · intro block b hb
    cases hb
  · intro block hb
    cases hb

/-- In every run whose iterations fit, each call of `trimUntil` goes through, removes
only what is committed and applied and what no block preserved when the check read
it, leaves `keepAtLeast` entries, and moves the start of the journal. -/
theorem what_is_trimmed_is_not_needed
    {clusterID : RaftClusterID} {nodes : List RaftServer} {startIndex : Int} {new : RaftJournal}
    (h0 : 0 ≤ startIndex) (hnew : RaftJournal.obliterate clusterID nodes startIndex = .ok new)
    (calls : List RaftJournal.JournalCall) (lastApplied : Int) (config : Option Bytes)
    {xs : List TrimStep} {a : TrimmedNode} {it : Iteration}
    (hs : ∀ before, before <+: xs → ∀ k,
      (startOn (new.afterAll calls) lastApplied config).runAll before = some k → Sane k)
    (ha : (startOn (new.afterAll calls) lastApplied config).runAll xs = some a)
    (hp : a.phase = .trimUntil it) :
    ∃ b, a.next .main = some b ∧
      (∀ i, (a.journal.fetch i).isSome → b.journal.fetch i = none →
        i < a.journal.commitIndex ∧ i < a.lastApplied) ∧
      (∀ block tb, it.created block = some tb → tb.Live →
        ∃ v, (block, v) ∈ it.read ∧ it.threshold < v) ∧
      (∀ i, (b.journal.fetch i).isSome ↔ b.journal.logStart ≤ i ∧ i < b.journal.logSize) ∧
      it.config.keepAtLeast ≤ b.journal.logSize - b.journal.logStart ∧
      a.journal.logStart < b.journal.logStart := by
  have hgood := RaftJournal.good_afterAll (RaftJournal.good_obliterate h0 hnew) calls
  have hw := watched_runAll (watched_startOn hgood lastApplied config) hs ha
  have hsound := hw.sound
  rw [hp] at hsound
  obtain ⟨hc, hcommit, happlied⟩ := hsound
  have htrim := trimUntil_of_cleared hw.good hc hcommit
  have hstep : a.next .main = some { a with
      journal := ((RaftJournal.trimUntil it.threshold).on a.journal).2, phase := .getLogStart } := by
    simp only [next, main, hp, htrim]
    rfl
  have hstored := (RaftJournal.good_trimUntil hw.good it.threshold).1.stored
  refine ⟨_, hstep, ?_, ?_, hstored, ?_, ?_⟩
  · intro i hi hn
    rw [htrim] at hn
    dsimp only [RaftJournal.fetch] at hi hn
    split_ifs at hn with hlt
    · omega
    · rw [hn] at hi
      cases hi
  · intro block tb hb hl
    rcases hc.read block tb hb hl with hm | hv
    · cases hm
    · exact hv
  · have h1 := hc.room
    have h2 := hc.size_le
    have h3 := hc.threshold_eq
    rw [htrim]
    dsimp only
    omega
  · have h1 := hc.start_eq
    have h2 := hc.threshold_eq
    have h3 := hc.fits.step_pos
    rw [htrim]
    dsimp only
    omega

/-- `Sane`, as a check of one state. -/
def isSane (n : TrimmedNode) : Bool :=
  match n.phase, quarkdb.getTrimmingConfig n.config with
  | .getTrimmingConfig start size, .ok config =>
    decide (signed (config.keepAtLeast + config.step) < size - start → Fits start config)
  | _, _ => true

theorem sane_of_isSane {n : TrimmedNode} (h : n.isSane = true) : Sane n := by
  intro start size config hp hc hroom
  rw [isSane, hp, hc] at h
  exact of_decide_eq_true h hroom

/-- Four writes are appended, committed and applied. -/
def fourWrites : List TrimStep :=
  (List.range 4).map (fun (k : Nat) =>
      TrimStep.append (k + 1) { term := 0, request := [ascii "SET"] }) ++
    [TrimStep.setCommitIndex 4, .apply, .apply, .apply, .apply]

/-- Two of the writes are trimmed while a block preserves the last of them. -/
def aTrim : List TrimStep :=
  fourWrites ++ [TrimStep.create 7 4, .registerChange 7] ++ List.replicate 8 TrimStep.main

theorem two_writes_are_trimmed :
    ∃ new a it b, RaftJournal.obliterate (ascii "id") [⟨ascii "s1", 7776⟩] 0 = .ok new ∧
      (startOn new 0 (some (ascii "1:2"))).runAll aTrim = some a ∧ a.phase = .trimUntil it ∧
      a.next .main = some b ∧ it.read = [(7, 4)] ∧
      a.journal.logStart < b.journal.logStart := by
  obtain ⟨new, a, it, hnew, hsane, ha, hp, hr⟩ : ∃ new a it,
      RaftJournal.obliterate (ascii "id") [⟨ascii "s1", 7776⟩] 0 = .ok new ∧
      (∀ before ∈ aTrim.inits,
        ∀ k ∈ (startOn (new.afterAll []) 0 (some (ascii "1:2"))).runAll before,
          k.isSane = true) ∧
      (startOn (new.afterAll []) 0 (some (ascii "1:2"))).runAll aTrim = some a ∧
      a.phase = .trimUntil it ∧ it.read = [(7, 4)] :=
    ⟨_, _, _, rfl, by decide +kernel, rfl, rfl, rfl⟩
  obtain ⟨b, hb, -, -, -, -, hlt⟩ := what_is_trimmed_is_not_needed (le_refl 0) hnew [] 0
    (some (ascii "1:2"))
    (fun before hbefore k hk =>
      sane_of_isSane (hsane before ((List.mem_inits _ _).mpr hbefore) k hk))
    ha hp
  exact ⟨new, a, it, b, hnew, ha, hp, hb, hr, hlt⟩

/-- With a step of zero the loop neither waits nor moves the start of the journal,
and with a sum that overflows it leaves fewer than `keepAtLeast` entries. -/
theorem some_configurations_are_not_kept :
    ∃ new, RaftJournal.obliterate (ascii "id") [⟨ascii "s1", 7776⟩] 0 = .ok new ∧
      (∃ a it b, (startOn new 0 (some (ascii "0:0"))).runAll
          (fourWrites ++ List.replicate 7 TrimStep.main) = some a ∧
        a.phase = .trimUntil it ∧ TrimmingConfig.parse (ascii "0:0") = some it.config ∧
        a.next .main = some b ∧ b.journal.logStart = a.journal.logStart) ∧
      ∃ a it b, (startOn new 0 (some (ascii "9223372036854775805:3"))).runAll
          (fourWrites ++ List.replicate 7 TrimStep.main) = some a ∧
        a.phase = .trimUntil it ∧
        TrimmingConfig.parse (ascii "9223372036854775805:3") = some it.config ∧
        a.next .main = some b ∧
        b.journal.logSize - b.journal.logStart < it.config.keepAtLeast := by
  refine ⟨_, rfl, ⟨_, _, _, rfl, rfl, rfl, rfl, rfl⟩, ⟨_, _, _, rfl, rfl, rfl, rfl, ?_⟩⟩
  show (2 : Int) < 9223372036854775805
  decide

end TrimmedNode

end quarkdb
