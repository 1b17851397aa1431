-- HCLONE: the records of one hash are written under the prefix of another, while the iterator
-- that finds them stands in the same batch. A name that ends in '|' is the prefix of one that
-- ends in '#': a hash that is copied onto such a neighbour grows under the iterator. And an
-- empty field is not copied to a key with a long name, whose locator frees its block.
import QuarkDB.Frames
import QuarkDB.Operations
import QuarkDB.Scans

namespace quarkdb

open Paging ByteOrder

/-! ## The command, on the records themselves -/

/-- What a view of the records gives for a key. -/
abbrev View := Bytes → Option Bytes

/-- An iterator over the batch and the database, made when both give these rows. It skips none
of them. Records that are put into the batch later may show up behind the current one, or not. -/
structure BatchIterator (db : Database) where
  next : List (Bytes × Bytes) → Bytes → Option (Bytes × Bytes)
  found : ∀ written key row, next written key = some row →
    key < row.1 ∧ (row ∈ db.rows ∨ row ∈ written) ∧ ∀ r ∈ db.rows, key < r.1 → row.1 ≤ r.1
  ended : ∀ written key, next written key = none → ∀ r ∈ db.rows, ¬ key < r.1

/-- The records that were put are seen over the others. -/
def putRows (view : View) (written : List (Bytes × Bytes)) : View :=
  written.foldl (fun view row => Function.update view row.1 (some row.2)) view

namespace Database

/-- The loop of `hclone`, for so many turns at most: what it writes. -/
def cloneLoop {db : Database} (iter : BatchIterator db) (sourcePrefix target : Bytes) :
    Nat → Option (Bytes × Bytes) → List (Bytes × Bytes) →
      Except Fault (Option (List (Bytes × Bytes)))
  | 0, _, _ => return none
  | _ + 1, none, written => return some written
  | turns + 1, some (tmp, value), written =>
    if ¬ sourcePrefix <+: tmp then return some written
    else do
      let locator ← FieldLocator.ofField .kHash target (tmp.drop sourcePrefix.length)
      let written := written ++ [(locator.toView, value)]
      cloneLoop iter sourcePrefix target turns (iter.next written tmp) written

/-- The results are a status and what is stored then; nothing, where the loop needs more turns. -/
def hclone (db : Database) (iter : BatchIterator db) (turns : Nat) (source target : Bytes) :
    Except Fault (Option (Status × View)) := do
  let keyinfo ← db.getKeyDescriptor target
  if !keyinfo.empty && keyinfo.keyType ≠ .kHash then return some (wrongType, db.get)
  else if !keyinfo.empty then
    return some (.InvalidArgument "ERR target key already exists, will not overwrite", db.get)
  else
    let sourceKeyInfo ← db.getKeyDescriptor source
    if sourceKeyInfo.empty then return some (.OK, db.get)
    else if sourceKeyInfo.keyType ≠ .kHash then return some (wrongType, db.get)
    else
      match ← cloneLoop iter (fieldPrefix .kHash source) target turns
        (db.seek (fieldPrefix .kHash source)).head? [] with
      | none => return none
      | some written =>
        qdbAssert (written.length = sourceKeyInfo.sz) "newsize == sourceKeyInfo.getSize()"
        let view := putRows db.get written
        if written.length = 0 then return some (.OK, Function.update view (33 :: target) none)
        else
          let descriptor : KeyDescriptor := { keyType := .kHash, sz := written.length }
          let bytes ← descriptor.serialize
          return some (.OK, Function.update view (33 :: target) (some bytes))

end Database

/-! ## What the command is for -/

/-- The descriptor of a key says that it is a hash of that size. -/
def IsHash (view : View) (key : Bytes) (size : Int) : Prop :=
  ∃ bytes d, view (33 :: key) = some bytes ∧ KeyDescriptor.ofBytes bytes = .ok d ∧
    d.keyType = .kHash ∧ d.sz = size

/-- The value that a view gives for a field of a hash. -/
def hashField (view : View) (key name : Bytes) : Option Bytes :=
  view (Database.fieldPrefix .kHash key ++ name)

/-- The target is a hash like the source now. The descriptors of all other keys, their records
that are not fields of hashes, and the fields of the hashes among them are as they were. -/
structure Clones (before after : View) (source target : Bytes) : Prop where
  size : ∀ size, IsHash before source size → IsHash after target size
  fields : ∀ name, hashField after target name = hashField before source name
  others : ∀ raw : Bytes, raw ≠ 33 :: target → raw.head? ≠ some KeyType.kHash.toChar →
    after raw = before raw
  hashes : ∀ key size, key ≠ target → IsHash before key size → ∀ name,
    hashField after key name = hashField before key name

/-- The command comes to an end. A hash is cloned to a key that does not exist, and nothing
changes in all other cases. -/
def ClonesOrNothing (db : Database) (iter : BatchIterator db) (source target : Bytes) : Prop :=
  ∃ turns st after, db.hclone iter turns source target = .ok (some (st, after)) ∧
    ((db.get (33 :: target) = none ∧ ∃ size, IsHash db.get source size) →
      st = .OK ∧ Clones db.get after source target) ∧
    (¬ (db.get (33 :: target) = none ∧ ∃ size, IsHash db.get source size) → after = db.get)

/-- What is there before a hash is cloned: the records under the prefix of the source are those
that it counts, and those under the prefix of the target are fields of the source. No field that
is written is one of another hash, unless it is there already, and no empty one is written where
the name of the target is long. -/
structure Clonable (db : Database) (source target : Bytes) (size : Int) : Prop where
  counted : ((db.under (Database.fieldPrefix .kHash source)).length : Int) = size
  free : ∀ name, hashField db.get source name = none → hashField db.get target name = none
  apart : ∀ key size, key ≠ target → IsHash db.get key size → ∀ name value,
    hashField db.get source name = some value → ReadsAs key target name →
    hashField db.get target name = some value
  named : Database.ShortName .kHash target ∨ hashField db.get source [] = none

/-! ## What is put -/

section

variable {view : View} {written : List (Bytes × Bytes)} {key value : Bytes}

theorem putRows_snoc (view : View) (written : List (Bytes × Bytes)) (row : Bytes × Bytes) :
    putRows view (written ++ [row]) = Function.update (putRows view written) row.1 (some row.2) := by
  simp [putRows, List.foldl_append]

theorem putRows_of_notMem (h : ∀ row ∈ written, row.1 ≠ key) : putRows view written key = view key := by
  induction written using List.reverseRecOn with
  | nil => rfl
  | append_singleton written row ih =>
    rw [putRows_snoc, Function.update_of_ne (h row (by simp)).symm]
    exact ih fun r hr => h r (by simp [hr])

theorem putRows_of_unique (hm : (key, value) ∈ written)
    (h : ∀ value', (key, value') ∈ written → value' = value) :
    putRows view written key = some value := by
  induction written using List.reverseRecOn with
  | nil => cases hm
  | append_singleton written row ih =>
    rw [putRows_snoc]
    by_cases hk : row.1 = key
    · obtain rfl := h row.2 (by simp [← hk])
      rw [← hk, Function.update_self]
    · rw [Function.update_of_ne (Ne.symm hk)]
      have hm' : (key, value) ∈ written := by
        rcases List.mem_append.mp hm with hm | hm
        · exact hm
        · exact absurd (congrArg Prod.fst (List.mem_singleton.mp hm)).symm hk
      exact ih hm' fun value' hv => h value' (by simp [hv])

theorem putRows_isSome (view : View) (hm : ∃ value, (key, value) ∈ written) :
    ∃ value, putRows view written key = some value := by
  induction written using List.reverseRecOn with
  | nil => simp at hm
  | append_singleton written row ih =>
    rw [putRows_snoc]
    by_cases hk : row.1 = key
    · rw [← hk, Function.update_self]
      exact ⟨_, rfl⟩
    · rw [Function.update_of_ne (Ne.symm hk)]
      obtain ⟨value, hm⟩ := hm
      rcases List.mem_append.mp hm with hm | hm
      · exact ih ⟨value, hm⟩
      · exact absurd (congrArg Prod.fst (List.mem_singleton.mp hm)).symm hk

end

/-! ## The loop -/

section

variable {db : Database} {iter : BatchIterator db} {sourcePrefix target : Bytes}
  {written final : List (Bytes × Bytes)}

/-- The iterator has left the records with the prefix. -/
def Past (keyPrefix : Bytes) (current : Option (Bytes × Bytes)) : Prop :=
  ∀ row, current = some row → ¬ keyPrefix <+: row.1

/-- The iterator stands at the first of the records with the prefix that are left. -/
def StandsAt (keyPrefix : Bytes) : List (Bytes × Bytes) → Option (Bytes × Bytes) → Prop
  | [], current => Past keyPrefix current
  | row :: _, current => current = some (keyPrefix ++ row.1, row.2)

/-- Between two records with a prefix there is none without it. -/
theorem prefix_of_between {keyPrefix name name' key : Bytes} (h1 : keyPrefix ++ name < key)
    (h2 : key ≤ keyPrefix ++ name') : keyPrefix <+: key := by
  by_contra hp
  have hle : keyPrefix ≤ key := le_trans (le_append keyPrefix name) (le_of_lt h1)
  exact absurd (append_lt_of_not_isPrefix hle hp name') (not_lt.mpr h2)

/-- Where nothing is put under the prefix, the iterator goes over the records under it that
were there when it was made. -/
theorem BatchIterator.next_under {before rest : List (Bytes × Bytes)} {current : Bytes × Bytes}
    (hnamed : db.under sourcePrefix = before ++ current :: rest)
    (hw : ∀ row ∈ written, ¬ sourcePrefix <+: row.1) :
    StandsAt sourcePrefix rest (iter.next written (sourcePrefix ++ current.1)) := by
  obtain ⟨name, value⟩ := current
  have hsorted := db.sorted_under sourcePrefix
  rw [hnamed] at hsorted
  have hbehind : ∀ r ∈ db.rows, sourcePrefix ++ name < r.1 → sourcePrefix <+: r.1 →
      ∃ row ∈ rest, r = (sourcePrefix ++ row.1, row.2) := by
    rintro ⟨key, v⟩ hr hlt ⟨name', rfl⟩
    have hm : (name', v) ∈ db.under sourcePrefix := by
      rw [Database.mem_under_iff, ← Database.mem_rows_iff]
      exact hr
    rw [hnamed] at hm
    have hlt := (append_lt_append sourcePrefix).mp hlt
    rcases List.mem_append.mp hm with hm | hm
    · have := (List.pairwise_append.mp hsorted).2.2 _ hm (name, value) List.mem_cons_self
      exact absurd hlt (lt_asymm this)
    rcases List.mem_cons.mp hm with he | hm
    · rw [Prod.mk.inj he |>.1] at hlt
      exact absurd hlt (lt_irrefl _)
    · exact ⟨_, hm, rfl⟩
  cases hnext : iter.next written (sourcePrefix ++ name) with
  | none =>
    cases rest with
    | nil =>
      intro row hrow
      cases hrow
    | cons row rest =>
      have hin : (sourcePrefix ++ row.1, row.2) ∈ db.rows := by
        rw [Database.mem_rows_iff, ← Database.mem_under_iff, hnamed]
        simp
      have hlt : name < row.1 := (List.pairwise_cons.mp (List.pairwise_append.mp hsorted).2.1).1 row
        List.mem_cons_self
      exact absurd ((append_lt_append sourcePrefix).mpr hlt) (iter.ended _ _ hnext _ hin)
  | some found =>
    obtain ⟨hlt, hwhere, hskip⟩ := iter.found _ _ _ hnext
    cases rest with
    | nil =>
      rintro row hrow hp
      cases hrow
      rcases hwhere with hin | hin
      · obtain ⟨row, hrow, -⟩ := hbehind _ hin hlt hp
        cases hrow
      · exact hw _ hin hp
    | cons row rest =>
      have hin : (sourcePrefix ++ row.1, row.2) ∈ db.rows := by
        rw [Database.mem_rows_iff, ← Database.mem_under_iff, hnamed]
        simp
      have hrest := (List.pairwise_append.mp hsorted).2.1
      have hrow : name < row.1 := (List.pairwise_cons.mp hrest).1 row List.mem_cons_self
      have hle := hskip _ hin ((append_lt_append sourcePrefix).mpr hrow)
      have hp : sourcePrefix <+: found.1 := prefix_of_between hlt hle
      rcases hwhere with hfound | hfound
      · obtain ⟨row', hrow', rfl⟩ := hbehind _ hfound hlt hp
        rcases List.mem_cons.mp hrow' with rfl | hrow'
        · rfl
        · have := (List.pairwise_cons.mp (List.pairwise_cons.mp hrest).2).1 row' hrow'
          exact absurd ((append_lt_append sourcePrefix).mpr this) (not_lt.mpr hle)
      · exact absurd hp (hw _ hfound)

/-- The iterator begins at the first record under the prefix. -/
theorem standsAt_seek (db : Database) (keyPrefix : Bytes) :
    StandsAt keyPrefix (db.under keyPrefix) (db.seek keyPrefix).head? := by
  have htake := db.takeWhile_seek keyPrefix []
  have hall : since Prod.fst (db.under keyPrefix) [] = db.under keyPrefix := since_bot _ _
  rw [List.append_nil, hall] at htake
  cases hseek : db.seek keyPrefix with
  | nil =>
    rw [hseek] at htake
    have hnil : db.under keyPrefix = [] := List.map_eq_nil_iff.mp htake.symm
    rw [hnil]
    intro row hrow
    cases hrow
  | cons row rows =>
    rw [hseek] at htake
    by_cases hp : keyPrefix <+: row.1
    · rw [List.takeWhile_cons_of_pos (by simpa using hp)] at htake
      cases hunder : db.under keyPrefix with
      | nil =>
        rw [hunder] at htake
        cases htake
      | cons first rest =>
        rw [hunder] at htake
        exact congrArg some (List.cons.inj htake).1
    · rw [List.takeWhile_cons_of_neg (by simpa using hp)] at htake
      have hnil : db.under keyPrefix = [] := List.map_eq_nil_iff.mp htake.symm
      rw [hnil]
      rintro row' hrow
      cases hrow
      exact hp

/-- One turn: a record under the prefix of the source is put under that of the target. -/
theorem cloneLoop_succ {turns : Nat} {name value : Bytes}
    (hn : ¬ FieldLocator.Frees .kHash target name) :
    Database.cloneLoop iter sourcePrefix target (turns + 1) (some (sourcePrefix ++ name, value))
        written =
      Database.cloneLoop iter sourcePrefix target turns
        (iter.next (written ++ [(Database.fieldPrefix .kHash target ++ name, value)])
          (sourcePrefix ++ name))
        (written ++ [(Database.fieldPrefix .kHash target ++ name, value)]) := by
  obtain ⟨block, hl⟩ := FieldLocator.ofField_eq (show KeyType.kHash.bearsFields = true from rfl) hn
  rw [Database.cloneLoop, if_neg (not_not.mpr (List.prefix_append _ _)), List.drop_left, hl]
  rfl

/-- Where nothing is put under the prefix of the source, the loop copies what is there. -/
theorem cloneLoop_eq
    (hb : ∀ row ∈ db.under sourcePrefix,
      ¬ sourcePrefix <+: Database.fieldPrefix .kHash target ++ row.1)
    (hn : ∀ row ∈ db.under sourcePrefix, ¬ FieldLocator.Frees .kHash target row.1)
    {before rest : List (Bytes × Bytes)} (hnamed : db.under sourcePrefix = before ++ rest)
    {current : Option (Bytes × Bytes)} (hc : StandsAt sourcePrefix rest current)
    (hw : ∀ row ∈ written, ¬ sourcePrefix <+: row.1) {turns : Nat} (ht : rest.length < turns) :
    Database.cloneLoop iter sourcePrefix target turns current written =
      .ok (some (written ++
        rest.map fun row => (Database.fieldPrefix .kHash target ++ row.1, row.2))) := by
  induction rest generalizing before current written turns with
  | nil =>
    obtain ⟨turns, rfl⟩ := Nat.exists_eq_succ_of_ne_zero (Nat.ne_of_gt ht)
    rw [List.map_nil, List.append_nil]
    cases current with
    | none => rfl
    | some row =>
      have hp := hc row rfl
      rw [Database.cloneLoop, if_pos hp]
      rfl
  | cons row rest ih =>
    obtain ⟨turns, rfl⟩ := Nat.exists_eq_succ_of_ne_zero (Nat.ne_of_gt (Nat.zero_lt_of_lt ht))
    rw [hc, cloneLoop_succ (hn row (by rw [hnamed]; simp))]
    have hw' : ∀ r ∈ written ++ [(Database.fieldPrefix .kHash target ++ row.1, row.2)],
        ¬ sourcePrefix <+: r.1 := by
      intro r hr
      rcases List.mem_append.mp hr with hr | hr
      · exact hw r hr
      · rw [List.mem_singleton.mp hr]
        exact hb row (by rw [hnamed]; simp)
    have hnext := iter.next_under hnamed hw'
    have hsnoc : db.under sourcePrefix = (before ++ [row]) ++ rest := by rw [hnamed]; simp
    rw [List.length_cons] at ht
    rw [ih hsnoc hnext hw' (by omega)]
    simp

/-- However the iterator goes on, all records under the prefix that were there when it was
made are copied, and what is put is put under the prefix of the target. -/
theorem cloneLoop_visits {turns : Nat} {current : Option (Bytes × Bytes)}
    (h : Database.cloneLoop iter sourcePrefix target turns current written = .ok (some final))
    (hc : ∀ row, current = some row → sourcePrefix ≤ row.1)
    (hall : ∀ r ∈ db.under sourcePrefix,
      (∃ value, (Database.fieldPrefix .kHash target ++ r.1, value) ∈ written) ∨
      ∃ row, current = some row ∧ row.1 ≤ sourcePrefix ++ r.1)
    (hput : ∀ row ∈ written, ∃ name, row.1 = Database.fieldPrefix .kHash target ++ name ∧
      ¬ FieldLocator.Frees .kHash target name) :
    (∀ r ∈ db.under sourcePrefix,
      ∃ value, (Database.fieldPrefix .kHash target ++ r.1, value) ∈ final) ∧
      ∀ row ∈ final, ∃ name, row.1 = Database.fieldPrefix .kHash target ++ name ∧
        ¬ FieldLocator.Frees .kHash target name := by
  induction turns generalizing current written with
  | zero => cases h
  | succ turns ih =>
    cases current with
    | none =>
      cases h
      refine ⟨fun r hr => ?_, hput⟩
      rcases hall r hr with hm | ⟨row, hrow, -⟩
      · exact hm
      · cases hrow
    | some row =>
      obtain ⟨key, value⟩ := row
      by_cases hp : sourcePrefix <+: key
      · obtain ⟨name, rfl⟩ := hp
        by_cases hn : FieldLocator.Frees .kHash target name
        · rw [Database.cloneLoop, if_neg (not_not.mpr (List.prefix_append _ _)), List.drop_left,
            FieldLocator.ofField_frees rfl hn] at h
          cases h
        rw [cloneLoop_succ hn] at h
        refine ih h (fun next hnext => ?_) (fun r hr => ?_) fun r hr => ?_
        · have hlt := (iter.found _ _ _ hnext).1
          exact le_trans (le_append sourcePrefix name) (le_of_lt hlt)
        · rcases hall r hr with ⟨value', hm⟩ | ⟨row', hrow', hle⟩
          · exact .inl ⟨value', List.mem_append_left _ hm⟩
          cases hrow'
          rcases lt_or_eq_of_le hle with hlt | heq
          · right
            have hin : (sourcePrefix ++ r.1, r.2) ∈ db.rows := by
              rw [Database.mem_rows_iff, ← Database.mem_under_iff]
              exact hr
            cases hnext : iter.next
                (written ++ [(Database.fieldPrefix .kHash target ++ name, value)])
                (sourcePrefix ++ name) with
            | none => exact absurd hlt (iter.ended _ _ hnext _ hin)
            | some next => exact ⟨next, rfl, (iter.found _ _ _ hnext).2.2 _ hin hlt⟩
          · left
            rw [← List.append_cancel_left heq]
            exact ⟨value, by simp⟩
        · rcases List.mem_append.mp hr with hr | hr
          · exact hput r hr
          · rw [List.mem_singleton.mp hr]
            exact ⟨name, rfl, hn⟩
      · rw [Database.cloneLoop, if_pos hp] at h
        cases h
        refine ⟨fun r hr => ?_, hput⟩
        rcases hall r hr with hm | ⟨row', hrow', hle⟩
        · exact hm
        · cases hrow'
          exact absurd (append_lt_of_not_isPrefix (hc _ rfl) hp r.1) (not_lt.mpr hle)

/-- A list of names that has each of its names behind a '#' too has none. -/
theorem nil_of_hashes {rows : List (Bytes × Bytes)}
    (h : ∀ row ∈ rows, ∃ value, (hash :: row.1, value) ∈ rows) : rows = [] := by
  by_contra hne
  obtain ⟨row, hrow⟩ := List.exists_mem_of_ne_nil rows hne
  have hlong : ∀ n, ∃ row ∈ rows, n ≤ row.1.length := by
    intro n
    induction n with
    | zero => exact ⟨row, hrow, Nat.zero_le _⟩
    | succ n ih =>
      obtain ⟨r, hr, hle⟩ := ih
      obtain ⟨value, hv⟩ := h r hr
      exact ⟨_, hv, by simpa using hle⟩
  obtain ⟨r, hr, hle⟩ := hlong ((rows.map fun r => r.1.length).sum + 1)
  have hsum := List.le_sum_of_mem (List.mem_map_of_mem (f := fun r => r.1.length) hr)
  omega

theorem cloneLoop_more {turns : Nat} {current : Option (Bytes × Bytes)}
    (h : Database.cloneLoop iter sourcePrefix target turns current written = .ok (some final))
    (more : Nat) :
    Database.cloneLoop iter sourcePrefix target (turns + more) current written =
      .ok (some final) := by
  induction turns generalizing current written with
  | zero => cases h
  | succ turns ih =>
    rw [Nat.succ_add]
    cases current with
    | none => exact h
    | some row =>
      rw [Database.cloneLoop] at h ⊢
      split_ifs at h ⊢ with hp
      · cases hl : FieldLocator.ofField .kHash target (row.1.drop sourcePrefix.length) with
        | error fault =>
          rw [hl] at h
          cases h
        | ok locator =>
          rw [hl] at h
          exact ih h
      · exact h

end

/-! ## The command as a whole -/

section

variable {db : Database} {iter : BatchIterator db} {source target : Bytes} {size : Int}

theorem getKeyDescriptor_of_isHash (h : IsHash db.get source size) :
    ∃ d, db.getKeyDescriptor source = .ok d ∧ d.keyType = .kHash ∧ d.sz = size := by
  obtain ⟨bytes, d, hg, hd, ht, hz⟩ := h
  refine ⟨d, ?_, ht, hz⟩
  unfold Database.getKeyDescriptor
  rw [hg]
  exact hd

theorem IsHash.unique {size' : Int} (h : IsHash db.get source size) (h' : IsHash db.get source size') :
    size = size' := by
  obtain ⟨d, hd, -, hz⟩ := getKeyDescriptor_of_isHash h
  obtain ⟨d', hd', -, hz'⟩ := getKeyDescriptor_of_isHash h'
  rw [hd] at hd'
  cases hd'
  rw [← hz, hz']

/-- What the command comes to, once its loop is over. -/
theorem hclone_of_loop (ht : db.get (33 :: target) = none) (hs : IsHash db.get source size)
    {turns : Nat} {written : List (Bytes × Bytes)}
    (hl : Database.cloneLoop iter (Database.fieldPrefix .kHash source) target turns
      (db.seek (Database.fieldPrefix .kHash source)).head? [] = .ok (some written))
    (hz : size ≠ 0) :
    db.hclone iter turns source target =
      if (written.length : Int) = size then
        .ok (some (.OK, Function.update (putRows db.get written) (33 :: target)
          (some (KeyType.kHash.toChar :: Endian.bigInt size))))
      else .error (.assertion "newsize == sourceKeyInfo.getSize()") := by
  obtain ⟨d, hd, htype, rfl⟩ := getKeyDescriptor_of_isHash hs
  have hnone : db.getKeyDescriptor target = .ok {} := by
    unfold Database.getKeyDescriptor
    rw [ht]
  have hempty : d.empty = false := by
    unfold KeyDescriptor.empty
    rw [htype]
    rfl
  have hfresh : KeyDescriptor.empty {} = true := rfl
  unfold Database.hclone
  rw [hnone]
  simp only [bind, Except.bind, hfresh, Bool.not_true, Bool.false_and, Bool.false_eq_true, if_false,
    hd, hempty, htype, ne_eq, not_true_eq_false, hl]
  by_cases hlen : (written.length : Int) = d.sz
  · have hne : written.length ≠ 0 := by omega
    rw [decide_eq_true hlen, qdbAssert_true, if_pos hlen]
    simp only [hne, if_false, hlen]
    rfl
  · rw [decide_eq_false hlen, qdbAssert_false, if_neg hlen]

/-- A loop that needs more turns, or uses what a locator has freed. -/
theorem hclone_of_no_end (ht : db.get (33 :: target) = none) (hs : IsHash db.get source size)
    {turns : Nat} (hl : ∀ written,
      Database.cloneLoop iter (Database.fieldPrefix .kHash source) target turns
        (db.seek (Database.fieldPrefix .kHash source)).head? [] ≠ .ok (some written))
    (st : Status) (after : View) : db.hclone iter turns source target ≠ .ok (some (st, after)) := by
  obtain ⟨d, hd, htype, rfl⟩ := getKeyDescriptor_of_isHash hs
  have hnone : db.getKeyDescriptor target = .ok {} := by
    unfold Database.getKeyDescriptor
    rw [ht]
  have hempty : d.empty = false := by
    unfold KeyDescriptor.empty
    rw [htype]
    rfl
  have hfresh : KeyDescriptor.empty {} = true := rfl
  unfold Database.hclone
  rw [hnone]
  simp only [bind, Except.bind, hfresh, Bool.not_true, Bool.false_and, Bool.false_eq_true, if_false,
    hd, hempty, htype, ne_eq, not_true_eq_false]
  cases hloop : Database.cloneLoop iter (Database.fieldPrefix .kHash source) target turns
      (db.seek (Database.fieldPrefix .kHash source)).head? [] with
  | error fault => exact fun h => by cases h
  | ok result =>
    cases result with
    | none => exact fun h => by cases h
    | some written => exact absurd hloop (hl written)

/-- The command refuses, or has nothing to do. -/
theorem hclone_otherwise (iter : BatchIterator db)
    (hdesc : ∀ key bytes, db.get (33 :: key) = some bytes → ∃ d, KeyDescriptor.ofBytes bytes = .ok d)
    (h : ¬ (db.get (33 :: target) = none ∧ ∃ size, IsHash db.get source size)) (turns : Nat) :
    ∃ st, db.hclone iter turns source target = .ok (some (st, db.get)) := by
  unfold Database.hclone
  cases ht : db.get (33 :: target) with
  | some bytes =>
    obtain ⟨d, hd⟩ := hdesc _ _ ht
    have hget : db.getKeyDescriptor target = .ok d := by
      unfold Database.getKeyDescriptor
      rw [ht]
      exact hd
    rw [hget]
    simp only [bind, Except.bind, ofBytes_not_empty hd, Bool.not_false, Bool.true_and, if_true]
    split_ifs
    · exact ⟨_, rfl⟩
    · exact ⟨_, rfl⟩
  | none =>
    have hget : db.getKeyDescriptor target = .ok {} := by
      unfold Database.getKeyDescriptor
      rw [ht]
    have hfresh : KeyDescriptor.empty {} = true := rfl
    rw [hget]
    simp only [bind, Except.bind, hfresh, Bool.not_true, Bool.false_and, Bool.false_eq_true, if_false]
    cases hs : db.get (33 :: source) with
    | none =>
      have hsource : db.getKeyDescriptor source = .ok {} := by
        unfold Database.getKeyDescriptor
        rw [hs]
      rw [hsource]
      exact ⟨_, rfl⟩
    | some bytes =>
      obtain ⟨d, hd⟩ := hdesc _ _ hs
      have hsource : db.getKeyDescriptor source = .ok d := by
        unfold Database.getKeyDescriptor
        rw [hs]
        exact hd
      have htype : d.keyType ≠ .kHash := fun htype => h ⟨ht, d.sz, bytes, d, hs, hd, htype, rfl⟩
      rw [hsource]
      simp only [ofBytes_not_empty hd, Bool.false_eq_true, if_false, ne_eq, htype, not_false_eq_true,
        if_true]
      exact ⟨_, rfl⟩

/-! ## When a clone is exact -/

theorem fieldPrefix_bar (type : KeyType) (stem name : Bytes) :
    Database.fieldPrefix type (stem ++ [hash]) ++ name =
      Database.fieldPrefix type (stem ++ [bar]) ++ (hash :: name) := by
  simp [Database.fieldPrefix, appendEscapedString, escapeHashes_append, escapeHashes_of_ne bar_ne_hash]

theorem fieldPrefix_prefix_iff (key key' name : Bytes) :
    Database.fieldPrefix .kHash key <+: Database.fieldPrefix .kHash key' ++ name ↔
      key = key' ∨ ReadsAs key key' name := by
  rw [← escaped_prefix_iff]
  simp [Database.fieldPrefix, appendEscapedString, List.cons_prefix_cons]

theorem mem_named_iff {name value : Bytes} :
    (name, value) ∈ db.under (Database.fieldPrefix .kHash source) ↔
      hashField db.get source name = some value := Database.mem_under_iff

/-- Between two neighbours, if each field of the source has its name behind a '#' too, there
are no fields. -/
theorem not_readsAs_of_hashes (hne : db.under (Database.fieldPrefix .kHash source) ≠ [])
    (hbar : ∀ stem, source = stem ++ [bar] → target = stem ++ [hash] →
      ∀ row ∈ db.under (Database.fieldPrefix .kHash source),
        hashField db.get source (hash :: row.1) ≠ none)
    (hhash : ∀ stem, source = stem ++ [hash] → target = stem ++ [bar] →
      ∀ row ∈ db.under (Database.fieldPrefix .kHash source),
        hashField db.get source (hash :: row.1) ≠ none) (name : Bytes) :
    ¬ ReadsAs source target name := by
  have hnil : ¬ ∀ row ∈ db.under (Database.fieldPrefix .kHash source),
      hashField db.get source (hash :: row.1) ≠ none := by
    refine fun h => hne (nil_of_hashes fun row hrow => ?_)
    obtain ⟨value, hv⟩ := Option.ne_none_iff_exists'.mp (h row hrow)
    exact ⟨value, mem_named_iff.mpr hv⟩
  rintro ⟨stem, ⟨h1, h2⟩ | ⟨h1, h2, -⟩⟩
  · exact hnil (hbar stem h1 h2)
  · exact hnil (hhash stem h1 h2)

theorem Clonable.not_readsAs (h : Clonable db source target size) (hs : IsHash db.get source size)
    (hz : size ≠ 0) (hne : source ≠ target) (name : Bytes) : ¬ ReadsAs source target name := by
  have hnonempty : db.under (Database.fieldPrefix .kHash source) ≠ [] := by
    intro hnil
    have := h.counted
    rw [hnil] at this
    exact hz this.symm
  refine not_readsAs_of_hashes hnonempty (fun stem h1 h2 row hrow => ?_)
    (fun stem h1 h2 row hrow => ?_) name
  · have hap := h.apart source size hne hs row.1 row.2 (mem_named_iff.mp hrow) ⟨stem, .inl ⟨h1, h2⟩⟩
    unfold hashField at hap ⊢
    rw [h2, fieldPrefix_bar, ← h1] at hap
    rw [hap]
    exact Option.some_ne_none _
  · refine fun hnone => ?_
    have hfree := h.free _ hnone
    unfold hashField at hfree
    rw [h2, ← fieldPrefix_bar, ← h1] at hfree
    have hin := mem_named_iff.mp hrow
    unfold hashField at hin
    rw [hfree] at hin
    cases hin

/-- The records that a clone puts. -/
def copies (db : Database) (source target : Bytes) : List (Bytes × Bytes) :=
  (db.under (Database.fieldPrefix .kHash source)).map fun row =>
    (Database.fieldPrefix .kHash target ++ row.1, row.2)

theorem mem_copies {key value : Bytes} : (key, value) ∈ copies db source target ↔
    ∃ name, key = Database.fieldPrefix .kHash target ++ name ∧
      hashField db.get source name = some value := by
  rw [copies, List.mem_map]
  constructor
  · rintro ⟨row, hrow, he⟩
    cases he
    exact ⟨row.1, rfl, mem_named_iff.mp hrow⟩
  · rintro ⟨name, rfl, hv⟩
    exact ⟨(name, value), mem_named_iff.mpr hv, rfl⟩

theorem putRows_copies (name : Bytes) :
    putRows db.get (copies db source target) (Database.fieldPrefix .kHash target ++ name) =
      (hashField db.get source name).orElse fun _ => hashField db.get target name := by
  cases hv : hashField db.get source name with
  | some value =>
    apply putRows_of_unique (mem_copies.mpr ⟨name, rfl, hv⟩)
    intro value' hm
    obtain ⟨name', he, hv'⟩ := mem_copies.mp hm
    rw [← List.append_cancel_left he, hv] at hv'
    exact (Option.some.inj hv').symm
  | none =>
    apply putRows_of_notMem
    rintro ⟨key, value⟩ hm rfl
    obtain ⟨name', he, hv'⟩ := mem_copies.mp hm
    rw [← List.append_cancel_left he, hv] at hv'
    cases hv'

theorem cloneLoop_copies (iter : BatchIterator db) (hb : ∀ name, ¬ ReadsAs source target name)
    (hn : ∀ row ∈ db.under (Database.fieldPrefix .kHash source),
      ¬ FieldLocator.Frees .kHash target row.1) (hne : source ≠ target) :
    Database.cloneLoop iter (Database.fieldPrefix .kHash source) target
      ((db.under (Database.fieldPrefix .kHash source)).length + 1)
      (db.seek (Database.fieldPrefix .kHash source)).head? [] =
        .ok (some (copies db source target)) := by
  have hall : db.under (Database.fieldPrefix .kHash source) =
      [] ++ db.under (Database.fieldPrefix .kHash source) := rfl
  apply cloneLoop_eq (fun row _ hp => ?_) hn hall (standsAt_seek db _) (by simp)
    (Nat.lt_succ_self _)
  rcases (fieldPrefix_prefix_iff _ _ _).mp hp with he | hreads
  · exact hne he
  · exact hb row.1 hreads

theorem fieldPrefix_ne_descriptor (key name : Bytes) :
    Database.fieldPrefix .kHash key ++ name ≠ 33 :: target := by
  intro he
  have := congrArg List.head? he
  exact absurd this (by simp [Database.fieldPrefix, appendEscapedString, KeyType.toChar])

theorem Clonable.not_frees (h : Clonable db source target size) :
    ∀ row ∈ db.under (Database.fieldPrefix .kHash source),
      ¬ FieldLocator.Frees .kHash target row.1 := by
  rintro ⟨name, value⟩ hrow ⟨hlong, rfl⟩
  rcases h.named with hshort | hnone
  · exact Nat.not_lt.mpr hshort hlong
  · have hv := mem_named_iff.mp hrow
    rw [hnone] at hv
    cases hv

theorem Clonable.clones (h : Clonable db source target size)
    (ht : db.get (33 :: target) = none) (hs : IsHash db.get source size) (hz : size ≠ 0)
    (hne : source ≠ target) : ClonesOrNothing db iter source target := by
  have hloop := cloneLoop_copies iter (h.not_readsAs hs hz hne) h.not_frees hne
  have hlen : ((copies db source target).length : Int) = size := by
    rw [copies, List.length_map]
    exact h.counted
  have hrun := hclone_of_loop ht hs hloop hz
  rw [if_pos hlen] at hrun
  refine ⟨_, _, _, hrun, fun _ => ⟨rfl, ?_⟩, fun hn => absurd ⟨ht, size, hs⟩ hn⟩
  have hfield : ∀ key name, hashField (Function.update (putRows db.get (copies db source target))
      (33 :: target) (some (KeyType.kHash.toChar :: Endian.bigInt size))) key name =
      putRows db.get (copies db source target) (Database.fieldPrefix .kHash key ++ name) :=
    fun key name => Function.update_of_ne (fieldPrefix_ne_descriptor key name) _ _
  constructor
  · intro size' hs'
    obtain rfl := hs.unique hs'
    obtain ⟨bytes, d, -, hd, -, rfl⟩ := hs
    have hlt : d.sz < 2 ^ 63 := ofBytes_sz_lt hd
    obtain ⟨d', hd', htype', hsz', -⟩ := ofBytes_serialize
      (d := { keyType := .kHash, sz := d.sz }) rfl (by rw [← hlen]; omega) hlt
    exact ⟨_, d', Function.update_self _ _ _, hd', htype', hsz'⟩
  · intro name
    rw [hfield, putRows_copies]
    cases hv : hashField db.get source name with
    | some value => rfl
    | none => exact h.free name hv
  · intro raw h1 h2
    rw [Function.update_of_ne h1]
    apply putRows_of_notMem
    rintro ⟨key, value⟩ hm rfl
    obtain ⟨name, rfl, -⟩ := mem_copies.mp hm
    exact h2 rfl
  · intro key size' hk hhash name
    rw [hfield]
    by_cases hm : ∃ value, (Database.fieldPrefix .kHash key ++ name, value) ∈ copies db source target
    · obtain ⟨value, hm⟩ := hm
      obtain ⟨name', he, hv⟩ := mem_copies.mp hm
      have hreads : ReadsAs key target name' :=
        ((fieldPrefix_prefix_iff _ _ _).mp ⟨name, he⟩).resolve_left hk
      have hap := h.apart key size' hk hhash name' value hv hreads
      rw [he, putRows_copies, hv]
      unfold hashField at hap ⊢
      rw [he, hap]
      rfl
    · apply putRows_of_notMem
      rintro ⟨key', value⟩ hm' rfl
      exact hm ⟨value, hm'⟩

/-- Where something was written, the source has fields. -/
theorem under_ne_nil_of_written {turns : Nat} {written : List (Bytes × Bytes)}
    (hloop : Database.cloneLoop iter (Database.fieldPrefix .kHash source) target turns
      (db.seek (Database.fieldPrefix .kHash source)).head? [] = .ok (some written))
    (hw : written ≠ []) : db.under (Database.fieldPrefix .kHash source) ≠ [] := by
  intro hnil
  have hstands := standsAt_seek db (Database.fieldPrefix .kHash source)
  rw [hnil] at hstands
  have hnothing : Database.cloneLoop iter (Database.fieldPrefix .kHash source) target 1
      (db.seek (Database.fieldPrefix .kHash source)).head? [] = .ok (some ([] ++ [].map _)) :=
    cloneLoop_eq (by simp [hnil]) (by simp [hnil]) (hnil.trans (List.append_nil []).symm)
      hstands (by simp) (Nat.lt_succ_self 0)
  have hsame := cloneLoop_more hnothing turns
  rw [Nat.add_comm, cloneLoop_more hloop] at hsame
  exact hw (Option.some.inj (Except.ok.inj hsame))

/-- A loop that came to its end has put a copy of each field, and nothing but such records. -/
theorem cloneLoop_visits_all {turns : Nat} {written : List (Bytes × Bytes)}
    (hloop : Database.cloneLoop iter (Database.fieldPrefix .kHash source) target turns
      (db.seek (Database.fieldPrefix .kHash source)).head? [] = .ok (some written))
    (hw : written ≠ []) :
    (∀ r ∈ db.under (Database.fieldPrefix .kHash source),
      ∃ value, (Database.fieldPrefix .kHash target ++ r.1, value) ∈ written) ∧
      ∀ row ∈ written, ∃ name, row.1 = Database.fieldPrefix .kHash target ++ name ∧
        ¬ FieldLocator.Frees .kHash target name := by
  refine cloneLoop_visits hloop (fun row hrow => ?_) (fun r hr => .inr ?_) nofun
  · have hm : row ∈ db.seek (Database.fieldPrefix .kHash source) := List.mem_of_mem_head? hrow
    exact ((mem_since_iff Prod.fst db.sorted).mp hm).2
  · have hstands := standsAt_seek db (Database.fieldPrefix .kHash source)
    have hsorted := db.sorted_under (Database.fieldPrefix .kHash source)
    cases hunder : db.under (Database.fieldPrefix .kHash source) with
    | nil => exact absurd hunder (under_ne_nil_of_written hloop hw)
    | cons first rest =>
      rw [hunder] at hstands hsorted hr
      refine ⟨_, hstands, ?_⟩
      rcases List.mem_cons.mp hr with rfl | hr
      · exact le_rfl
      · exact le_of_lt ((append_lt_append _).mpr ((List.pairwise_cons.mp hsorted).1 r hr))

/-- A clone that is exact tells what was there before. -/
theorem ClonesOrNothing.clonable (h : ClonesOrNothing db iter source target)
    (ht : db.get (33 :: target) = none) (hs : IsHash db.get source size) (hz : size ≠ 0)
    (hne : source ≠ target) : Clonable db source target size := by
  obtain ⟨turns, st, after, hrun, hthen, -⟩ := h
  have hclones := (hthen ⟨ht, size, hs⟩).2
  clear hthen
  by_cases hends : ∃ written, Database.cloneLoop iter (Database.fieldPrefix .kHash source) target
      turns (db.seek (Database.fieldPrefix .kHash source)).head? [] = .ok (some written)
  swap
  · exact absurd hrun (hclone_of_no_end ht hs (not_exists.mp hends) st after)
  · obtain ⟨written, hloop⟩ := hends
    rw [hclone_of_loop ht hs hloop hz] at hrun
    split_ifs at hrun with hlen
    cases hrun
    have hfield : ∀ key name, hashField (Function.update (putRows db.get written) (33 :: target)
        (some (KeyType.kHash.toChar :: Endian.bigInt size))) key name =
        putRows db.get written (Database.fieldPrefix .kHash key ++ name) :=
      fun key name => Function.update_of_ne (fieldPrefix_ne_descriptor key name) _ _
    have hwritten : written ≠ [] := by
      rintro rfl
      exact hz hlen.symm
    have hnonempty := under_ne_nil_of_written hloop hwritten
    obtain ⟨hvisits, hput⟩ := cloneLoop_visits_all hloop hwritten
    have hfrees : ∀ row ∈ db.under (Database.fieldPrefix .kHash source),
        ¬ FieldLocator.Frees .kHash target row.1 := by
      intro row hrow
      obtain ⟨value, hm⟩ := hvisits row hrow
      obtain ⟨name, he, hn⟩ := hput _ hm
      rwa [List.append_cancel_left he]
    have hapart : ∀ name, ¬ ReadsAs source target name := not_readsAs_of_hashes hnonempty
      (fun stem h1 h2 row hrow => by
        obtain ⟨value, hv⟩ := putRows_isSome db.get (hvisits row hrow)
        rw [← hclones.hashes source size hne hs, hfield]
        rw [h2, fieldPrefix_bar, ← h1] at hv
        rw [hv]
        exact Option.some_ne_none _)
      (fun stem h1 h2 row hrow => by
        have hin := mem_named_iff.mp hrow
        rw [← hclones.hashes source size hne hs, hfield] at hin
        rw [← hclones.fields, hfield, h2, ← fieldPrefix_bar, ← h1, hin]
        exact Option.some_ne_none _)
    -- nothing is put under the prefix of the source, so the copies are what is put
    have hcopies := cloneLoop_more (cloneLoop_copies iter hapart hfrees hne) turns
    rw [Nat.add_comm, cloneLoop_more hloop] at hcopies
    cases hcopies
    constructor
    · rw [← hlen, copies, List.length_map]
    · intro name hnone
      have hfields := hclones.fields name
      rw [hfield, putRows_copies, hnone] at hfields
      exact hfields
    · intro key size' hk hhash name value hv hreads
      obtain ⟨name', he⟩ := (fieldPrefix_prefix_iff key target name).mpr (.inr hreads)
      have hfields := hclones.fields name
      rw [hfield, hv, ← he, ← hfield, hclones.hashes key size' hk hhash] at hfields
      unfold hashField at hfields ⊢
      rw [← he]
      exact hfields
    · by_contra hnamed
      rw [not_or] at hnamed
      obtain ⟨value, hv⟩ := Option.ne_none_iff_exists'.mp hnamed.2
      exact hfrees _ (mem_named_iff.mpr hv) ⟨Nat.lt_of_not_le hnamed.1, rfl⟩

end

/-- Whatever the iterator makes of the records that are put under way, a hash is cloned exactly,
and nothing changes where there is nothing to clone or the target exists, if and only if none of
the records under the two prefixes is another hash's, and no empty field goes to a long name. -/
theorem hclone_copies_exactly_unless_prefixes_overlap {db : Database}
    (hdesc : ∀ key bytes, db.get (33 :: key) = some bytes →
      ∃ d, KeyDescriptor.ofBytes bytes = .ok d ∧ (d.keyType = .kHash → d.sz ≠ 0))
    (iter : BatchIterator db) {source target : Bytes} (hne : source ≠ target) :
    ClonesOrNothing db iter source target ↔
      ∀ size, db.get (33 :: target) = none → IsHash db.get source size →
        Clonable db source target size := by
  have hsize : ∀ size, IsHash db.get source size → size ≠ 0 := by
    rintro size ⟨bytes, d, hg, hd, htype, rfl⟩
    obtain ⟨d', hd', hz⟩ := hdesc _ _ hg
    rw [hd] at hd'
    cases hd'
    exact hz htype
  constructor
  · exact fun h size ht hs => h.clonable ht hs (hsize size hs) hne
  · intro h
    by_cases hcase : db.get (33 :: target) = none ∧ ∃ size, IsHash db.get source size
    · obtain ⟨ht, size, hs⟩ := hcase
      exact (h size ht hs).clones ht hs (hsize size hs) hne
    · obtain ⟨st, hrun⟩ := hclone_otherwise iter
        (fun key bytes hg => (hdesc key bytes hg).imp fun _ hd => hd.1) hcase 0
      exact ⟨0, st, _, hrun, fun hn => absurd hn hcase, fun _ => rfl⟩

/-- An iterator that does not see what is put once it is made. -/
def BatchIterator.ofView (db : Database) : BatchIterator db where
  next _ key := db.rows.find? fun row => key < row.1
  found written key row h := by
    obtain ⟨hlt, before, after, hrows, hbefore⟩ := List.find?_eq_some_iff_append.mp h
    refine ⟨by simpa using hlt, .inl (by rw [hrows]; simp), fun r hr hkey => ?_⟩
    rw [hrows] at hr
    rcases List.mem_append.mp hr with hr | hr
    · exact absurd hkey (by simpa using hbefore r hr)
    rcases List.mem_cons.mp hr with rfl | hr
    · exact le_rfl
    · have hsorted := db.sorted
      rw [hrows] at hsorted
      exact le_of_lt ((List.pairwise_cons.mp (List.pairwise_append.mp hsorted).2.1).1 r hr)
  ended written key h r hr := by
    have hn := List.find?_eq_none.mp h r hr
    simpa using hn

/-- A hash with one field. -/
def oneField (key : Bytes) : List (Bytes × Bytes) :=
  [(33 :: key, KeyType.kHash.toChar :: Endian.bigInt 1),
    (Database.fieldPrefix .kHash key ++ ascii "f", ascii "v")]

def hashOfOne : Database := ⟨oneField (ascii "s"), by decide +kernel⟩

theorem the_hash_of_one_is_cloned :
    ClonesOrNothing hashOfOne (BatchIterator.ofView hashOfOne) (ascii "s") (ascii "t") := by
  have hrow : ∀ raw value, hashOfOne.get raw = some value → (raw, value) ∈ oneField (ascii "s") :=
    fun raw value h => Database.mem_rows_iff.mpr h
  have hkey : ∀ key bytes, hashOfOne.get (33 :: key) = some bytes →
      key = ascii "s" ∧ bytes = KeyType.kHash.toChar :: Endian.bigInt 1 := by
    intro key bytes h
    simpa [oneField, Database.fieldPrefix, appendEscapedString, KeyType.toChar] using hrow _ _ h
  have hread : KeyDescriptor.ofBytes (KeyType.kHash.toChar :: Endian.bigInt 1) =
      .ok { keyType := .kHash, sz := 1 } := by decide +kernel
  refine (hclone_copies_exactly_unless_prefixes_overlap (fun key bytes h => ?_) _
    (by decide)).mpr fun size _ hs => ⟨?_, fun name _ => ?_,
    fun key size' _ hhash name _ _ hreads => ?_,
      .inl (show _ ≤ _ by decide)⟩
  · obtain ⟨-, rfl⟩ := hkey key bytes h
    exact ⟨_, hread, fun _ => by decide⟩
  · obtain ⟨bytes, d, hg, hd, -, rfl⟩ := hs
    obtain ⟨-, rfl⟩ := hkey _ _ hg
    obtain rfl := Except.ok.inj (hread.symm.trans hd)
    decide +kernel
  · by_contra hsome
    obtain ⟨value, hv⟩ := Option.ne_none_iff_exists'.mp hsome
    have hm := hrow _ _ hv
    simp [oneField, Database.fieldPrefix, appendEscapedString, KeyType.toChar, ascii, escapeHashes,
      hash] at hm
  · obtain ⟨bytes, d, hg, -⟩ := hhash
    obtain ⟨rfl, -⟩ := hkey _ _ hg
    obtain ⟨stem, ⟨h, -⟩ | ⟨h, -⟩⟩ := hreads
    · exact absurd (congrArg List.getLast? h) (by simp [ascii, bar])
    · exact absurd (congrArg List.getLast? h) (by simp [ascii, hash])

def hashOfABar : Database := ⟨oneField (ascii "a|"), by decide +kernel⟩

/-- However the iterator goes on, "a|" is not cloned to "a#". -/
theorem a_hash_of_a_bar_is_not_cloned :
    ¬ ∃ iter, ClonesOrNothing hashOfABar iter (ascii "a|") (ascii "a#") := by
  rintro ⟨iter, h⟩
  have hs : IsHash hashOfABar.get (ascii "a|") 1 :=
    ⟨KeyType.kHash.toChar :: Endian.bigInt 1, { keyType := .kHash, sz := 1 }, by decide +kernel,
      by decide +kernel, rfl, rfl⟩
  have hclonable := h.clonable (by decide +kernel) hs (by decide) (by decide)
  have hreads : ReadsAs (ascii "a|") (ascii "a#") [] := ⟨ascii "a", .inl (by decide)⟩
  exact hclonable.not_readsAs hs (by decide) (by decide) [] hreads

end quarkdb
