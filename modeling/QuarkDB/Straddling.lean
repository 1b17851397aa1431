-- When the records of a key do not stand in one run: a key that ends in '|' and has fields
-- before and after '#', and the key that ends in '#' in its place.
import QuarkDB.Rebuilding
import QuarkDB.SingleDeletes

namespace quarkdb

open Endian StateMachine StagingArea Tally Outcome RedisDispatcher Grouping ByteOrder

/-! ## Records in order -/

/-- What stands after the prefix of a key. -/
def StoreKey.rest : StoreKey → Bytes
  | .field _ _ name => name
  | .localityField _ hintAndField => InternalLocalityFieldType.kData.toChar :: hintAndField
  | .localityIndex _ name => InternalLocalityFieldType.kIndex.toChar :: name
  | _ => []

/-- Fields of a key that ends in '|', one before '#' and one after it, and a field of the same
type of the key that ends in '#' in its place. -/
def Straddled (items : List LoadItem) : Prop :=
  ∃ type stem name value c f v d f' v',
    .ofField type (stem ++ [hash]) name value ∈ items ∧
    .ofField type (stem ++ [bar]) (c :: f) v ∈ items ∧ c < hash ∧
    .ofField type (stem ++ [bar]) (d :: f') v' ∈ items ∧ hash < d

/-- What stands between two keys with a prefix has the prefix too. -/
theorem prefix_between {p a b c : Bytes} (hab : p ++ a ≤ b) (hbc : b ≤ p ++ c) : p <+: b := by
  by_contra hp
  have hpb : p ≤ b := le_trans (le_append p a) hab
  exact absurd (append_lt_of_not_isPrefix hpb hp c) (not_lt.mpr hbc)

theorem append_le_append (p : Bytes) {s t : Bytes} : p ++ s ≤ p ++ t ↔ s ≤ t := by
  rw [← not_lt, append_lt_append, not_lt]

theorem rawPrefix_append (type : KeyType) (key rest : Bytes) :
    rawPrefix type key ++ rest = type.toChar :: (escapeHashes key ++ (hash :: hash :: rest)) := by
  simp [rawPrefix, appendEscapedString]

/-- The prefix of the key that ends in '#' begins with that of the key that ends in '|'. -/
theorem rawPrefix_hash (type : KeyType) (stem rest : Bytes) :
    rawPrefix type (stem ++ [hash]) ++ rest = rawPrefix type (stem ++ [bar]) ++ hash :: rest := by
  simp [rawPrefix_append, escapeHashes_append, escapeHashes_of_ne bar_ne_hash]

section

variable {items : List LoadItem} {key : Bytes}

/-- A record of a key: its only one, or one with a prefix. -/
theorem Sensible.record_cases (h : Sensible items) {e : StoreKey × Bytes} {n : Nat}
    (hm : e.1 ∈ loaded items) (hw : weigh e = some (key, n)) :
    e.1 = .string key ∧ typeIn items key = .kString ∨
      e.1.toRaw = rawPrefix (typeIn items key) key ++ e.1.rest ∧ ¬ EndIsLost key e.1.rest ∧
        typeIn items key ≠ .kString := by
  have ho := owner_of_weigh hw
  have hd := h.typed hm ho
  obtain ⟨k, v⟩ := e
  cases k with
  | string key' =>
    cases ho
    exact .inl ⟨rfl, (Option.some.inj hd).symm⟩
  | field t key' name =>
    cases ho
    obtain ⟨value, hi⟩ := mem_field.mp hm
    obtain ⟨hk, -, ht⟩ := h.whole _ hi
    have hb : t.bearsFields = true ∧ t ≠ .kString := by
      rcases ht with rfl | ⟨rfl, -⟩ <;> decide
    rw [← Option.some.inj hd]
    exact .inr ⟨rfl, ((fieldKeyDecodes_iff hb.1 hk name).mp (h.decodes _ hi)).1, hb.2⟩
  | localityField key' x =>
    cases ho
    rw [← Option.some.inj hd]
    refine .inr ⟨(localityPrefix_append .kData key x).trans (rawPrefix_append _ _ _).symm, ?_,
      by decide⟩
    rintro ⟨-, hc | hc⟩
    · cases hc
    · exact absurd (Option.some.inj hc) (by decide)
  | localityIndex key' name =>
    cases ho
    rw [← Option.some.inj hd]
    refine .inr ⟨(localityPrefix_append .kIndex key name).trans (rawPrefix_append _ _ _).symm, ?_,
      by decide⟩
    rintro ⟨-, hc | hc⟩
    · cases hc
    · exact absurd (Option.some.inj hc) (by decide)
  | descriptor key' => cases hw
  | lease key' => cases hw
  | expirationEvent deadline key' => cases hw
  | configuration key' => cases hw
  | clock => cases hw
  | lastApplied => cases hw

/-- The records of a hash or a set are its fields. -/
theorem Sensible.field_of_rest (h : Sensible items) {e : StoreKey × Bytes} {n : Nat}
    (hm : e.1 ∈ loaded items) (hw : weigh e = some (key, n)) (hs : typeIn items key ≠ .kString)
    (hl : typeIn items key ≠ .kLocalityHash) :
    ∃ value, .ofField (typeIn items key) key e.1.rest value ∈ items := by
  have ho := owner_of_weigh hw
  have hd := h.typed hm ho
  obtain ⟨k, v⟩ := e
  cases k with
  | string key' =>
    cases ho
    exact absurd (Option.some.inj hd).symm hs
  | field t key' name =>
    cases ho
    rw [← Option.some.inj hd]
    exact mem_field.mp hm
  | localityField key' x =>
    cases ho
    exact absurd (Option.some.inj hd).symm hl
  | localityIndex key' name =>
    cases ho
    exact absurd (Option.some.inj hd).symm hl
  | _ => cases hw

theorem Sensible.rest_of_locality (h : Sensible items) {e : StoreKey × Bytes} {n : Nat}
    (hm : e.1 ∈ loaded items) (hw : weigh e = some (key, n))
    (ht : typeIn items key = .kLocalityHash) : ∃ c f, e.1.rest = c :: f ∧ hash < c := by
  have ho := owner_of_weigh hw
  have hd := h.typed hm ho
  rw [ht] at hd
  obtain ⟨k, v⟩ := e
  cases k <;> cases ho <;> cases hd
  · obtain ⟨value, hi⟩ := mem_field.mp hm
    obtain ⟨-, -, hc | ⟨hc, -⟩⟩ := h.whole _ hi
    · cases hc
    · cases hc
  · exact ⟨_, _, rfl, by decide⟩
  · exact ⟨_, _, rfl, by decide⟩

theorem hash_lt_of_le {c : UInt8} {s t : Bytes} (h : hash :: t ≤ c :: s) (hc : c ≠ hash) :
    hash < c := by
  rcases lt_or_eq_of_le h with hlt | heq
  · rcases List.cons_lt_cons_iff.mp hlt with hlt | ⟨he, -⟩
    · exact hlt
    · exact absurd he.symm hc
  · exact absurd (List.cons.inj heq).1.symm hc

theorem lt_hash_of_le {c : UInt8} {s t : Bytes} (h : c :: s ≤ hash :: t) (hc : c ≠ hash) :
    c < hash := by
  rcases lt_or_eq_of_le h with hlt | heq
  · rcases List.cons_lt_cons_iff.mp hlt with hlt | ⟨he, -⟩
    · exact hlt
    · exact absurd he hc
  · exact absurd (List.cons.inj heq).1 hc

/-- The names after a prefix that ends in '|' do not begin with '#'. -/
theorem rest_of_bar {stem rest : Bytes} (h : ¬ EndIsLost (stem ++ [bar]) rest) :
    ∃ c f, rest = c :: f ∧ c ≠ hash := by
  have hlast : (stem ++ [bar]).getLast? = some bar := List.getLast?_concat
  rcases rest with _ | ⟨c, f⟩
  · exact absurd ⟨hlast, .inl rfl⟩ h
  · exact ⟨c, f, rfl, fun hc => h ⟨hlast, .inr (by rw [hc]; rfl)⟩⟩

/-- The records of a key, in front of and after one of another key. -/
theorem Sensible.straddled (h : Sensible items) {e₁ e e₃ : StoreKey × Bytes} {n₁ n n₃ : Nat}
    {other : Bytes} (hm₁ : e₁.1 ∈ loaded items) (hm : e.1 ∈ loaded items)
    (hm₃ : e₃.1 ∈ loaded items) (hw₁ : weigh e₁ = some (key, n₁)) (hw : weigh e = some (other, n))
    (hw₃ : weigh e₃ = some (key, n₃)) (hne : other ≠ key) (hd : e₁.1 ≠ e₃.1)
    (h₁ : e₁.1.toRaw ≤ e.1.toRaw) (h₃ : e.1.toRaw ≤ e₃.1.toRaw) : Straddled items := by
  rcases h.record_cases hm₁ hw₁ with ⟨hs₁, ht₁⟩ | ⟨hr₁, hl₁, ht₁⟩
  · rcases h.record_cases hm₃ hw₃ with ⟨hs₃, -⟩ | ⟨-, -, ht₃⟩
    · exact absurd (hs₁.trans hs₃.symm) hd
    · exact absurd ht₁ ht₃
  rcases h.record_cases hm₃ hw₃ with ⟨-, ht₃⟩ | ⟨hr₃, hl₃, -⟩
  · exact absurd ht₃ ht₁
  rw [hr₁] at h₁
  rw [hr₃] at h₃
  have hp := prefix_between h₁ h₃
  rcases h.record_cases hm hw with ⟨hs, -⟩ | ⟨hr, hl, ht⟩
  · -- a string begins with another byte
    exfalso
    rw [hs] at hp
    obtain ⟨t, hp⟩ := hp
    rw [rawPrefix_append] at hp
    have hc : (typeIn items key).toChar = KeyType.kString.toChar := (List.cons.inj hp).1
    rcases h.isLoaded_typeIn key with he | he | he | he
    · exact ht₁ he
    all_goals
      rw [he] at hc
      cases hc
  rw [hr] at hp h₁ h₃
  have htype : typeIn items key = typeIn items other := by
    rw [rawPrefix_append, ← List.append_nil (rawPrefix _ key), rawPrefix_append,
      List.cons_prefix_cons] at hp
    have hc := hp.1
    rcases h.isLoaded_typeIn key with h1 | h1 | h1 | h1 <;>
      rcases h.isLoaded_typeIn other with h2 | h2 | h2 | h2 <;> rw [h1, h2] at hc ⊢ <;> cases hc
  have hreads : ReadsAs key other e.1.rest := by
    rw [rawPrefix_append, ← List.append_nil (rawPrefix _ key), rawPrefix_append,
      List.cons_prefix_cons] at hp
    exact ((escaped_prefix_iff _ _ _).mp hp.2).resolve_left hne.symm
  obtain ⟨stem, ⟨rfl, rfl⟩ | ⟨rfl, rfl, hhead⟩⟩ := hreads
  · rw [← htype, rawPrefix_hash] at h₁ h₃
    obtain ⟨c, f, hc, hch⟩ := rest_of_bar hl₁
    obtain ⟨d, f', hd, hdh⟩ := rest_of_bar hl₃
    rw [hc] at h₁
    rw [hd] at h₃
    have hlt : c < hash := lt_hash_of_le ((append_le_append _).mp h₁) hch
    have hgt : hash < d := hash_lt_of_le ((append_le_append _).mp h₃) hdh
    have hnl : typeIn items (stem ++ [bar]) ≠ .kLocalityHash := by
      intro hloc
      obtain ⟨c', f'', hc', hgt'⟩ := h.rest_of_locality hm₁ hw₁ hloc
      rw [hc] at hc'
      cases hc'
      exact absurd hlt (not_lt.mpr (le_of_lt hgt'))
    obtain ⟨v, hi₁⟩ := h.field_of_rest hm₁ hw₁ ht₁ hnl
    obtain ⟨v', hi₃⟩ := h.field_of_rest hm₃ hw₃ ht₁ hnl
    obtain ⟨value, hi⟩ := h.field_of_rest hm hw ht (htype ▸ hnl)
    rw [hc] at hi₁
    rw [hd] at hi₃
    rw [← htype] at hi
    exact ⟨_, stem, _, value, c, f, v, d, f', v', hi, hi₁, hlt, hi₃, hgt⟩
  · exact absurd ⟨List.getLast?_concat, .inr hhead⟩ hl

/-! ## Interrupted runs -/

theorem Sensible.straddled_of_interrupted (h : Sensible items)
    (hi : Interrupted key ((sortedEntries (loaded items)).filterMap weigh)) : Straddled items := by
  obtain ⟨before, x, after, hxs, hx, hb, ha⟩ := hi
  have hsorted := sortedEntries_sorted (loaded items)
  have hnodup := sortedEntries_nodup (loaded items)
  have hmem : ∀ e ∈ sortedEntries (loaded items), e.1 ∈ loaded items :=
    fun e he => sortedEntries_mem he
  obtain ⟨es₁, es', hes, hbefore, hrest⟩ := List.filterMap_eq_append_iff.mp hxs
  obtain ⟨skip, e, es₃, rfl, -, hw, hafter⟩ := List.filterMap_eq_cons_iff.mp hrest
  rw [← hbefore] at hb
  rw [← hafter] at ha
  obtain ⟨⟨g₁, n₁⟩, hx₁, rfl⟩ := List.mem_map.mp hb
  obtain ⟨e₁, he₁, hw₁⟩ := List.mem_filterMap.mp hx₁
  obtain ⟨⟨g₃, n₃⟩, hx₃, rfl⟩ := List.mem_map.mp ha
  obtain ⟨e₃, he₃, hw₃⟩ := List.mem_filterMap.mp hx₃
  rw [hes] at hsorted hnodup hmem
  have hle₁ : e₁.1.toRaw ≤ e.1.toRaw :=
    (List.pairwise_append.mp hsorted).2.2 e₁ he₁ e (by simp)
  have hle₃ : e.1.toRaw ≤ e₃.1.toRaw := by
    have htail := (List.pairwise_append.mp (List.pairwise_append.mp hsorted).2.1).2.1
    exact List.rel_of_pairwise_cons htail he₃
  have hd : e₁.1 ≠ e₃.1 := by
    rw [List.map_append, List.nodup_append] at hnodup
    refine hnodup.2.2 e₁.1 (List.mem_map_of_mem he₁) e₃.1 (List.mem_map_of_mem ?_)
    simp [he₃]
  exact h.straddled (hmem e₁ (by simp [he₁])) (hmem e (by simp)) (hmem e₃ (by simp [he₃])) hw₁ hw
    hw₃ hx hd hle₁ hle₃

theorem Sensible.interrupted_of_straddled (h : Sensible items) (hs : Straddled items) :
    ∃ key, Interrupted key ((sortedEntries (loaded items)).filterMap weigh) ∧
      (typeIn items key).bearsFields = true := by
  obtain ⟨type, stem, name, value, c, f, v, d, f', v', hi, hi₁, hc, hi₃, hd⟩ := hs
  have hraw : ∀ k n, (StoreKey.field type k n).toRaw = rawPrefix type k ++ n := fun _ _ => rfl
  have hentry : ∀ {k n v}, .ofField type k n v ∈ items →
      ∃ v', (StoreKey.field type k n, v') ∈ sortedEntries (loaded items) := by
    intro k n v hi
    obtain ⟨v', hv⟩ := Option.isSome_iff_exists.mp (AList.lookup_isSome.mpr (mem_field.mpr ⟨v, hi⟩))
    exact ⟨v', mem_sortedEntries.mpr hv⟩
  obtain ⟨w₁, he₁⟩ := hentry hi₁
  obtain ⟨w, he⟩ := hentry hi
  obtain ⟨w₃, he₃⟩ := hentry hi₃
  have hlt₁ : (StoreKey.field type (stem ++ [bar]) (c :: f)).toRaw <
      (StoreKey.field type (stem ++ [hash]) name).toRaw := by
    rw [hraw, hraw, rawPrefix_hash, append_lt_append]
    exact List.cons_lt_cons_iff.mpr (.inl hc)
  have hlt₃ : (StoreKey.field type (stem ++ [hash]) name).toRaw <
      (StoreKey.field type (stem ++ [bar]) (d :: f')).toRaw := by
    rw [hraw, hraw, rawPrefix_hash, append_lt_append]
    exact List.cons_lt_cons_iff.mpr (.inl hd)
  have hsorted := sortedEntries_sorted (loaded items)
  obtain ⟨before, after, hes⟩ := List.append_of_mem he
  rw [hes] at hsorted he₁ he₃ ⊢
  have hbefore : (StoreKey.field type (stem ++ [bar]) (c :: f), w₁) ∈ before := by
    rcases List.mem_append.mp he₁ with hm | hm
    · exact hm
    rcases List.mem_cons.mp hm with he | hm
    · exact absurd (congrArg (fun e => e.1.toRaw) he) (ne_of_lt hlt₁)
    · have hle := List.rel_of_pairwise_cons (List.pairwise_append.mp hsorted).2.1 hm
      exact absurd hlt₁ (not_lt.mpr hle)
  have hafter : (StoreKey.field type (stem ++ [bar]) (d :: f'), w₃) ∈ after := by
    rcases List.mem_append.mp he₃ with hm | hm
    · have hle := (List.pairwise_append.mp hsorted).2.2 _ hm _ List.mem_cons_self
      exact absurd hlt₃ (not_lt.mpr hle)
    rcases List.mem_cons.mp hm with he | hm
    · exact absurd (congrArg (fun e => e.1.toRaw) he).symm (ne_of_lt hlt₃)
    · exact hm
  refine ⟨stem ++ [bar], ⟨before.filterMap weigh, (stem ++ [hash], 1), after.filterMap weigh, ?_,
    ?_, ?_, ?_⟩, ?_⟩
  · rw [List.filterMap_append, List.filterMap_cons_some (show weigh
      (StoreKey.field type (stem ++ [hash]) name, w) = some (stem ++ [hash], 1) from rfl)]
  · intro he
    exact absurd (List.append_cancel_left he) (by decide)
  · exact List.mem_map.mpr ⟨(stem ++ [bar], 1), List.mem_filterMap.mpr ⟨_, hbefore, rfl⟩, rfl⟩
  · exact List.mem_map.mpr ⟨(stem ++ [bar], 1), List.mem_filterMap.mpr ⟨_, hafter, rfl⟩, rfl⟩
  · have ht : typeIn items (stem ++ [bar]) = type := h.typeIn_eq hi₁
    rw [ht]
    obtain ⟨-, -, rfl | ⟨rfl, -⟩⟩ := h.whole _ hi₁
    · rfl
    · rfl

/-! ## Both modes -/

theorem bigInt_inj {x y : Int} (hx : 0 ≤ x) (hx' : x < 2 ^ 63) (hy : 0 ≤ y) (hy' : y < 2 ^ 63)
    (h : bigInt x = bigInt y) : x = y := by
  rw [← ofBigInt_bigInt (by omega) hx', h, ofBigInt_bigInt (by omega) hy']

/-- The descriptor that is built for a key whose records stand in one run is right. -/
theorem Sensible.descriptor_eq (h : Sensible items)
    (hn : ¬ Interrupted key ((sortedEntries (loaded items)).filterMap weigh)) :
    ((lookupRun key (runs ((sortedEntries (loaded items)).filterMap weigh))).map fun n : Nat =>
        (typeIn items key).toChar :: bigInt n) =
      describedAs (typeIn items key) (sizeOfKey (loaded items) key (typeIn items key)) := by
  have hr := lastRun_runs key ((sortedEntries (loaded items)).filterMap weigh)
  have htotal := h.total_eq key
  unfold describedAs
  rcases hl : lookupRun key (runs ((sortedEntries (loaded items)).filterMap weigh)) with _ | n
  · rw [hl] at hr
    rw [total_eq_zero hr] at htotal
    rw [← htotal, if_pos (show ((0 : Nat) : Int) = 0 from rfl)]
    rfl
  · rw [hl] at hr
    obtain ⟨hm, -, hall, -⟩ := hr
    have hpos : 0 < sizeOfKey (loaded items) key (typeIn items key) := by
      obtain ⟨⟨g, w⟩, hx, rfl⟩ := List.mem_map.mp hm
      obtain ⟨e, he, hw⟩ := List.mem_filterMap.mp hx
      have ho := owner_of_weigh hw
      rcases mem_loaded.mp (sortedEntries_mem he) with hc | hc | ⟨item, hi, hk⟩
      · rw [hc] at ho
        cases ho
      · rw [hc] at ho
        cases ho
      · have hkey : item.key = g := by
          cases item <;>
            simp only [LoadItem.records, List.map_cons, List.map_nil, List.mem_cons,
              List.not_mem_nil, or_false] at hk
          · rw [hk] at ho
            exact Option.some.inj ho
          · rw [hk] at ho
            exact Option.some.inj ho
          · rcases hk with hk | hk
            · rw [hk] at ho
              exact Option.some.inj ho
            · rw [hk] at ho
              exact Option.some.inj ho
        have hp := h.sizeOfKey_pos hi
        rw [← h.typeIn_eq hi, hkey] at hp
        exact hp
    rw [if_neg (by omega), ← htotal, hall hn]
    rfl

/-- One whose records do not is wrong. -/
theorem Sensible.descriptor_ne (h : Sensible items) (hroom : items.length < 2 ^ 63)
    (hi : Interrupted key ((sortedEntries (loaded items)).filterMap weigh))
    (hb : (typeIn items key).bearsFields = true) :
    ((lookupRun key (runs ((sortedEntries (loaded items)).filterMap weigh))).map fun n : Nat =>
        (typeIn items key).toChar :: bigInt n) ≠
      describedAs (typeIn items key) (sizeOfKey (loaded items) key (typeIn items key)) := by
  have hr := lastRun_runs key ((sortedEntries (loaded items)).filterMap weigh)
  have htotal := h.total_eq key
  have hlt := h.sizeOfKey_lt hroom (h.isLoaded_typeIn key) key
  have hmem : key ∈ ((sortedEntries (loaded items)).filterMap weigh).map Prod.fst := by
    obtain ⟨before, x, after, hxs, -, hm, -⟩ := hi
    rw [hxs, List.map_append]
    exact List.mem_append_left _ hm
  have hweights : ∀ x ∈ (sortedEntries (loaded items)).filterMap weigh, x.1 = key → 0 < x.2 := by
    intro x hx hk
    obtain ⟨e, he, hw⟩ := List.mem_filterMap.mp hx
    have ho := owner_of_weigh hw
    rw [hk] at ho
    have hd := h.typed (sortedEntries_mem he) ho
    obtain ⟨k, v⟩ := e
    cases k with
    | string key' =>
      rw [← Option.some.inj hd] at hb
      cases hb
    | localityIndex key' name =>
      rw [← Option.some.inj hd] at hb
      cases hb
    | field t key' name =>
      cases hw
      exact Nat.one_pos
    | localityField key' y =>
      cases hw
      exact Nat.one_pos
    | _ => cases hw
  unfold describedAs
  rcases hl : lookupRun key (runs ((sortedEntries (loaded items)).filterMap weigh)) with _ | n
  · rw [hl] at hr
    exact absurd hmem hr
  · rw [hl] at hr
    obtain ⟨-, -, -, hpart⟩ := hr
    have hless := hpart hweights hi
    rw [← htotal, if_neg (by omega), Option.map_some]
    intro he
    have he := bigInt_inj (by omega) (by omega) (by omega) (by omega)
      (List.cons.inj (Option.some.inj he)).2
    omega

end

section

variable (doubles : Doubles) (dispatchRead : StagingArea → RedisRequest → Except Fault Bytes)

/-- Bulkload ends in the store that normal mode ends in, with the same data and the same
descriptors, just when no key that ends in '|' has fields on both sides of '#' while the key
that ends in '#' in its place has a field of that type. -/
theorem bulkload_ends_as_normal_mode_unless_keys_straddle {loads : List Load}
    (h : Loadable loads) :
    ∃ bulk m, bulkload loads = .ok bulk ∧
      runAll doubles dispatchRead freshMachine loads = .ok m ∧
      ((∀ k, bulk.lookup k = m.store.lookup k) ↔ ¬ Straddled (itemsOf loads)) := by
  have hs := h.sensible
  have hroom := h.room
  obtain ⟨m, hm, halike⟩ := h.runAll_eq doubles dispatchRead
  refine ⟨_, m, (bulkload_eq h).trans (hs.finalizeBulkload_eq hroom), hm, ?_⟩
  generalize itemsOf loads = items at hs hroom halike ⊢
  have hnone : ∀ key, (loaded items).lookup (.descriptor key) = none := by
    intro key
    refine AList.lookup_eq_none.mpr fun hc => ?_
    rcases mem_loaded.mp hc with he | he | ⟨item, hi, hk⟩
    · cases he
    · cases he
    · cases item <;> simp [LoadItem.records] at hk
  have hbulk : ∀ key, (putAll (loaded items)
      ((runs ((sortedEntries (loaded items)).filterMap weigh)).reverse.map
        (render (typeIn items)))).lookup (.descriptor key) =
      (lookupRun key (runs ((sortedEntries (loaded items)).filterMap weigh))).map fun n : Nat =>
        (typeIn items key).toChar :: bigInt n := by
    intro key
    rw [lookup_render, hnone, Option.or_none]
  constructor
  · intro hall hstr
    obtain ⟨key, hi, hb⟩ := hs.interrupted_of_straddled hstr
    have he := hall (.descriptor key)
    rw [hbulk, halike.described] at he
    exact hs.descriptor_ne hroom hi hb he
  · intro hstr k
    by_cases hk : ∃ key, k = .descriptor key
    · obtain ⟨key, rfl⟩ := hk
      rw [hbulk, halike.described]
      exact hs.descriptor_eq fun hi => hstr (hs.straddled_of_interrupted hi)
    · have hk : ∀ key, k ≠ .descriptor key := fun key he => hk ⟨key, he⟩
      rw [lookup_render_of_ne _ _ hk, halike.same k hk]

end

/-- A hash and a set, each with two entries. -/
def plainLoads : List Load :=
  [⟨.HMSET, [ascii "HMSET", ascii "h", ascii "a", ascii "1", ascii "b", ascii "2"],
      by decide +kernel⟩,
    ⟨.SADD, [ascii "SADD", ascii "s", ascii "a", ascii "b"], by decide +kernel⟩]

theorem plainLoads_loadable : Loadable plainLoads where
  parts := by decide +kernel
  oneType := by decide +kernel
  oneHint key name hint hint' value value' h := by
    simp [itemsOf, plainLoads, Load.items, hashItems, setItems] at h
  decodes item h := by
    have hitems : itemsOf plainLoads =
        [.ofField .kHash (ascii "h") (ascii "a") (ascii "1"),
          .ofField .kHash (ascii "h") (ascii "b") (ascii "2"),
          .ofField .kSet (ascii "s") (ascii "a") (ascii "1"),
          .ofField .kSet (ascii "s") (ascii "b") (ascii "1")] := by decide +kernel
    rw [hitems] at h
    simp only [List.mem_cons, List.not_mem_nil, or_false] at h
    rcases h with rfl | rfl | rfl | rfl <;>
    · refine (fieldKeyDecodes_iff (by decide) (by decide) _).mpr ⟨fun hl => ?_, by decide⟩
      exact absurd hl.1 (by decide)
  room := by decide +kernel

theorem plain_loads_end_as_in_normal_mode :
    ∃ bulk m, bulkload plainLoads = .ok bulk ∧
      runAll wholeDoubles readsNothing freshMachine plainLoads = .ok m ∧
      ∀ k, bulk.lookup k = m.store.lookup k := by
  obtain ⟨bulk, m, hb, hm, hiff⟩ :=
    bulkload_ends_as_normal_mode_unless_keys_straddle wholeDoubles readsNothing plainLoads_loadable
  refine ⟨bulk, m, hb, hm, hiff.mpr ?_⟩
  have hnone : ∀ item ∈ itemsOf plainLoads, item.key.getLast? ≠ some bar := by decide +kernel
  rintro ⟨type, stem, name, value, c, f, v, d, f', v', -, hi, -⟩
  exact hnone _ hi List.getLast?_concat

/-- "x|" has a field before and one after '#', and "x#" is a hash too. -/
def straddlingLoads : List Load :=
  [⟨.HSET, [ascii "HSET", ascii "x|", ascii "!a", ascii "v"], by decide +kernel⟩,
    ⟨.HSET, [ascii "HSET", ascii "x#", ascii "f", ascii "v"], by decide +kernel⟩,
    ⟨.HSET, [ascii "HSET", ascii "x|", ascii "b", ascii "v"], by decide +kernel⟩]

/-- The records of `straddlingLoads`, sorted. -/
def straddlingRecords : List (StoreKey × Bytes) :=
  [(.clock, unsignedIntToBinaryString 0), (.lastApplied, bigInt 0),
    (.field .kHash (ascii "x|") (ascii "!a"), ascii "v"),
    (.field .kHash (ascii "x#") (ascii "f"), ascii "v"),
    (.field .kHash (ascii "x|") (ascii "b"), ascii "v")]

theorem straddlingLoads_loadable : Loadable straddlingLoads where
  parts := by decide +kernel
  oneType := by decide +kernel
  oneHint key name hint hint' value value' h := by
    simp [itemsOf, straddlingLoads, Load.items] at h
  decodes item h := by
    have hitems : itemsOf straddlingLoads =
        [.ofField .kHash (ascii "x|") (ascii "!a") (ascii "v"),
          .ofField .kHash (ascii "x#") (ascii "f") (ascii "v"),
          .ofField .kHash (ascii "x|") (ascii "b") (ascii "v")] := by decide +kernel
    rw [hitems] at h
    simp only [List.mem_cons, List.not_mem_nil, or_false] at h
    rcases h with rfl | rfl | rfl <;>
    · refine (fieldKeyDecodes_iff (by decide) (by decide) _).mpr ⟨fun hl => ?_, by decide⟩
      rcases hl.2 with hc | hc
      · exact absurd hc (by decide)
      · exact absurd hc (by decide)
  room := by decide +kernel

/-- Bulkload counts one field where normal mode counts two. -/
theorem bulkload_miscounts_a_hash_that_ends_in_a_bar :
    Loadable straddlingLoads ∧
      (bulkload straddlingLoads).map (fun bulk => bulk.lookup (.descriptor (ascii "x|"))) =
        .ok (some [98, 0, 0, 0, 0, 0, 0, 0, 1]) ∧
      (runAll wholeDoubles readsNothing freshMachine straddlingLoads).map
        (fun m => m.store.lookup (.descriptor (ascii "x|"))) =
        .ok (some [98, 0, 0, 0, 0, 0, 0, 0, 2]) := by
  have hsorted : sortedEntries (loaded (itemsOf straddlingLoads)) = straddlingRecords :=
    sortedEntries_eq (by decide +kernel) (by decide +kernel)
  have hbulk : bulkload straddlingLoads = do
      let b ← (straddlingRecords.map fun e => (e.1.toRaw, e.2)).foldlM KeyDescriptorBuilder.visit {}
      let b ← b.appendToWriteBatch
      return putAll (loaded (itemsOf straddlingLoads)) b.descriptorBatch := by
    rw [bulkload_eq straddlingLoads_loadable]
    unfold finalizeBulkload KeyDescriptorBuilder.build rawRecords
    rw [hsorted, bind_assoc]
    simp only [bind_assoc, pure_bind]
  refine ⟨straddlingLoads_loadable, ?_, by decide +kernel⟩
  rw [hbulk]
  decide +kernel

end quarkdb
