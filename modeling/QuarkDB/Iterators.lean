-- The database as an iterator sees it: rows in the order of their keys, byte by byte.
-- The rows whose keys begin with a prefix stand together.
import QuarkDB.Bytes
import QuarkDB.Endian
import QuarkDB.Paging

namespace quarkdb

open Paging

/-! ## The order of the bytes -/

namespace ByteOrder

scoped instance linearOrderUInt8 : LinearOrder UInt8 where
  le_refl := UInt8.le_refl
  le_trans _ _ _ := UInt8.le_trans
  lt_iff_le_not_ge a b := by
    rw [UInt8.not_le]
    exact ⟨fun h => ⟨UInt8.le_of_lt h, h⟩, fun h => h.2⟩
  le_antisymm _ _ := UInt8.le_antisymm
  le_total := UInt8.le_total
  toDecidableLE := inferInstance
  toDecidableEq := inferInstance
  toDecidableLT := inferInstance

/-- The empty name comes before all others. -/
scoped instance orderBotBytes : OrderBot Bytes where
  bot := []
  bot_le s := by
    cases s with
    | nil => exact le_refl _
    | cons c s => exact le_of_lt List.Lex.nil

theorem bot_eq : (⊥ : Bytes) = [] := rfl

theorem append_lt_append (p : Bytes) {s t : Bytes} : p ++ s < p ++ t ↔ s < t := by
  induction p with
  | nil => rfl
  | cons c p ih => simp [ih]

/-- A key that does not begin with `p`, but comes after it, comes after all that do. -/
theorem append_lt_of_not_isPrefix {p k : Bytes} (h : p ≤ k) (hp : ¬ p <+: k) (s : Bytes) :
    p ++ s < k := by
  induction p generalizing k with
  | nil => exact absurd (List.nil_prefix) hp
  | cons c p ih =>
    cases k with
    | nil => exact absurd h (not_le.mpr List.Lex.nil)
    | cons d k =>
      rw [List.cons_append, List.cons_lt_cons_iff]
      rcases lt_or_eq_of_le h with hlt | heq
      · rcases List.cons_lt_cons_iff.mp hlt with hcd | ⟨rfl, hpk⟩
        · exact .inl hcd
        · exact .inr ⟨rfl, ih (le_of_lt hpk) fun hc => hp (by simpa using hc)⟩
      · exact absurd (heq ▸ List.prefix_refl _) hp

theorem le_append (p s : Bytes) : p ≤ p ++ s := by
  rcases eq_or_ne s [] with rfl | hs
  · rw [List.append_nil]
  · have h : p ++ [] < p ++ s := (append_lt_append p).mpr (bot_lt_iff_ne_bot.mpr hs)
    rw [List.append_nil] at h
    exact le_of_lt h

/-- Names of one length stand in the order of the numbers that they spell, the most
significant byte first. -/
theorem lt_iff_of_length_eq {s t : Bytes} (h : s.length = t.length) :
    s < t ↔ Endian.ofLittle s.reverse < Endian.ofLittle t.reverse := by
  induction s generalizing t with
  | nil =>
    obtain rfl := List.length_eq_zero_iff.mp h.symm
    simp
  | cons c s ih =>
    cases t with
    | nil => cases h
    | cons d t =>
      have hl : s.length = t.length := Nat.succ.inj h
      have hs := Endian.ofLittle_lt s.reverse
      have ht := Endian.ofLittle_lt t.reverse
      rw [List.length_reverse] at hs ht
      rw [List.cons_lt_cons_iff, ih hl, List.reverse_cons, List.reverse_cons,
        Endian.ofLittle_append, Endian.ofLittle_append, List.length_reverse, List.length_reverse, hl]
      rw [hl] at hs
      simp only [Endian.ofLittle, mul_zero, add_zero, UInt8.lt_iff_toNat_lt]
      generalize 256 ^ t.length = width at hs ht ⊢
      constructor
      · rintro (hlt | ⟨rfl, hlt⟩)
        · have := Nat.mul_le_mul_left width (Nat.succ_le_of_lt hlt)
          rw [Nat.mul_succ] at this
          omega
        · omega
      · intro hlt
        rcases Nat.lt_trichotomy c.toNat d.toNat with hcd | hcd | hcd
        · exact .inl hcd
        · obtain rfl := UInt8.toNat_inj.mp hcd
          exact .inr ⟨rfl, by omega⟩
        · have := Nat.mul_le_mul_left width (Nat.succ_le_of_lt hcd)
          rw [Nat.mul_succ] at this
          omega

end ByteOrder

open ByteOrder

/-! ## The rows of the database -/

/-- The keys and the values of the database, as an iterator goes over them. -/
structure Database where
  rows : List (Bytes × Bytes)
  sorted : Sorted Prod.fst rows

namespace Database

/-- `db->Get`. -/
def get (db : Database) (key : Bytes) : Option Bytes :=
  (db.rows.find? fun row => row.1 == key).map Prod.snd

/-- `iter->Seek(key)`: the rows that the iterator goes over from there. -/
def seek (db : Database) (key : Bytes) : List (Bytes × Bytes) := since Prod.fst db.rows key

/-- What a row has under a prefix: a name and a value. -/
def strip (keyPrefix : Bytes) (row : Bytes × Bytes) : Option (Bytes × Bytes) :=
  if keyPrefix <+: row.1 then some (row.1.drop keyPrefix.length, row.2) else none

theorem strip_eq_some {keyPrefix : Bytes} {row named : Bytes × Bytes} :
    strip keyPrefix row = some named ↔ row = (keyPrefix ++ named.1, named.2) := by
  unfold strip
  constructor
  · intro h
    split_ifs at h with hp
    obtain ⟨rest, hrest⟩ := hp
    cases h
    rw [← hrest, List.drop_left, hrest]
  · rintro rfl
    simp

/-- The names and the values under a prefix. -/
def under (db : Database) (keyPrefix : Bytes) : List (Bytes × Bytes) :=
  db.rows.filterMap (strip keyPrefix)

theorem mem_rows_iff {db : Database} {key value : Bytes} :
    (key, value) ∈ db.rows ↔ db.get key = some value := by
  obtain ⟨rows, hs⟩ := db
  unfold get
  dsimp only
  induction rows with
  | nil => simp
  | cons row rows ih =>
    obtain ⟨hlt, hrest⟩ := List.pairwise_cons.mp hs
    rw [List.mem_cons, List.find?_cons]
    by_cases hk : row.1 = key
    · subst hk
      have hout : (row.1, value) ∉ rows := fun hm => lt_irrefl row.1 (hlt (row.1, value) hm)
      simp [hout, Prod.ext_iff, eq_comm]
    · have hne : (key, value) ≠ row := fun he => hk (by rw [← he])
      simp only [hne, false_or, ih hrest, beq_eq_false_iff_ne.mpr hk]

theorem mem_under_iff {db : Database} {keyPrefix name value : Bytes} :
    (name, value) ∈ db.under keyPrefix ↔ db.get (keyPrefix ++ name) = some value := by
  rw [← mem_rows_iff, under, List.mem_filterMap]
  constructor
  · rintro ⟨row, hrow, he⟩
    rw [strip_eq_some.mp he] at hrow
    exact hrow
  · intro h
    exact ⟨_, h, strip_eq_some.mpr rfl⟩

theorem sorted_under (db : Database) (keyPrefix : Bytes) :
    Sorted Prod.fst (db.under keyPrefix) := by
  refine List.Pairwise.filterMap _ ?_ db.sorted
  intro a a' hlt b hb b' hb'
  rw [strip_eq_some.mp hb, strip_eq_some.mp hb'] at hlt
  exact (append_lt_append keyPrefix).mp hlt

/-- Of rows that come after a prefix, those that begin with it come first. -/
theorem takeWhile_of_le {keyPrefix : Bytes} {rows : List (Bytes × Bytes)}
    (hs : Sorted Prod.fst rows) (hle : ∀ row ∈ rows, keyPrefix ≤ row.1) :
    rows.takeWhile (fun row => keyPrefix <+: row.1) =
      (rows.filterMap (strip keyPrefix)).map fun row => (keyPrefix ++ row.1, row.2) := by
  induction rows with
  | nil => rfl
  | cons row rows ih =>
    obtain ⟨hlt, hrest⟩ := List.pairwise_cons.mp hs
    by_cases hp : keyPrefix <+: row.1
    · obtain ⟨name, hname⟩ := hp
      have hrow : row = (keyPrefix ++ name, row.2) := by rw [hname]
      have hstrip : strip keyPrefix row = some (name, row.2) := strip_eq_some.mpr hrow
      have hp : keyPrefix <+: row.1 := ⟨name, hname⟩
      rw [List.takeWhile_cons_of_pos (by simpa using hp), List.filterMap_cons_some hstrip,
        List.map_cons, ih hrest fun r hr => hle r (by simp [hr]), ← hrow]
    · have hnone : ∀ r ∈ row :: rows, strip keyPrefix r = none := by
        intro r hr
        rcases List.mem_cons.mp hr with rfl | hr
        · simp [strip, hp]
        · by_contra hsome
          obtain ⟨named, hnamed⟩ := Option.ne_none_iff_exists'.mp hsome
          have hrow := append_lt_of_not_isPrefix (hle row (by simp)) hp named.1
          have hr1 : row.1 < keyPrefix ++ named.1 := by
            have := hlt r hr
            rwa [strip_eq_some.mp hnamed] at this
          exact lt_asymm hrow hr1
      rw [List.takeWhile_cons_of_neg (by simpa using hp), List.filterMap_eq_nil_iff.mpr hnone]
      rfl

/-- What an iterator finds under a prefix, from a name on: it stops at the first key
without the prefix. -/
theorem takeWhile_seek (db : Database) (keyPrefix name : Bytes) :
    (db.seek (keyPrefix ++ name)).takeWhile (fun row => keyPrefix <+: row.1) =
      (since Prod.fst (db.under keyPrefix) name).map fun row => (keyPrefix ++ row.1, row.2) := by
  obtain ⟨rows, hs⟩ := db
  unfold seek under
  dsimp only
  induction rows with
  | nil => rfl
  | cons row rows ih =>
    obtain ⟨hlt, hrest⟩ := List.pairwise_cons.mp hs
    by_cases hk : row.1 < keyPrefix ++ name
    · rw [since_cons_of_lt Prod.fst hk, ih hrest]
      cases hstrip : strip keyPrefix row with
      | none => rw [List.filterMap_cons_none hstrip]
      | some named =>
        rw [strip_eq_some.mp hstrip, append_lt_append] at hk
        rw [List.filterMap_cons_some hstrip, since_cons_of_lt Prod.fst hk]
    · -- From here on every row comes after the key that is sought.
      have hle : ∀ r ∈ row :: rows, keyPrefix ++ name ≤ r.1 := by
        intro r hr
        rcases List.mem_cons.mp hr with rfl | hr
        · exact not_lt.mp hk
        · exact le_trans (not_lt.mp hk) (le_of_lt (hlt r hr))
      rw [since_of_le Prod.fst hle, takeWhile_of_le hs fun r hr =>
        le_trans (le_append keyPrefix name) (hle r hr)]
      rw [since_of_le Prod.fst]
      intro named hnamed
      obtain ⟨r, hr, hstrip⟩ := List.mem_filterMap.mp hnamed
      have := hle r hr
      rw [strip_eq_some.mp hstrip] at this
      exact not_lt.mp fun hlt' => not_lt.mpr this ((append_lt_append keyPrefix).mpr hlt')

theorem map_strip (keyPrefix : Bytes) (rows : List (Bytes × Bytes)) :
    (rows.filterMap (strip keyPrefix)).map (fun row => (keyPrefix ++ row.1, row.2)) =
      rows.filter fun row => keyPrefix <+: row.1 := by
  induction rows with
  | nil => rfl
  | cons row rows ih =>
    cases hstrip : strip keyPrefix row with
    | none =>
      have hp : ¬ keyPrefix <+: row.1 := by
        intro hp
        simp [strip, hp] at hstrip
      rw [List.filterMap_cons_none hstrip, ih, List.filter_cons_of_neg (by simpa using hp)]
    | some named =>
      have hrow := strip_eq_some.mp hstrip
      have hp : keyPrefix <+: row.1 := by
        rw [hrow]
        exact List.prefix_append _ _
      rw [List.filterMap_cons_some hstrip, List.map_cons, ih,
        List.filter_cons_of_pos (by simpa using hp), ← hrow]

/-- From a name under a prefix on, the rows with the prefix come first. -/
theorem takeWhile_since {rows : List (Bytes × Bytes)} (hs : Sorted Prod.fst rows)
    (keyPrefix name : Bytes) :
    (since Prod.fst rows (keyPrefix ++ name)).takeWhile (fun row => keyPrefix <+: row.1) =
      since Prod.fst (rows.filter fun row => keyPrefix <+: row.1) (keyPrefix ++ name) := by
  have h := takeWhile_seek ⟨rows, hs⟩ keyPrefix name
  unfold seek under at h
  rw [h, ← map_strip, since, since, List.dropWhile_map]
  congr 2
  funext row
  simp [append_lt_append]

end Database

end quarkdb
