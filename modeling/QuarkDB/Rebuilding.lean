-- The descriptors that bulkload ends with: the builder adds up runs of keys with one prefix,
-- and a key has its right size just when its records stand in one run.
import QuarkDB.Grouping
import QuarkDB.Iterators
import QuarkDB.Keeping

namespace quarkdb

open Endian StateMachine StagingArea Tally Outcome RedisDispatcher Grouping

/-! ## What a record counts for -/

/-- The redis key of a record, and what the record adds to its size. -/
def weigh (e : StoreKey × Bytes) : Option (Bytes × Nat) :=
  match e.1 with
  | .string key => some (key, e.2.length)
  | .field _ key _ => some (key, 1)
  | .localityField key _ => some (key, 1)
  | .localityIndex key _ => some (key, 0)
  | _ => none

/-- What stands in front of the records of a key. -/
def rawPrefix (type : KeyType) (key : Bytes) : Bytes := appendEscapedString [type.toChar] key

/-- The descriptor that is put for a run. -/
def render (typeOf : Bytes → KeyType) (run : Bytes × Nat) : StoreKey × Bytes :=
  (.descriptor run.1, (typeOf run.1).toChar :: bigInt run.2)

namespace KeyDescriptorBuilder

/-- What the builder holds after some runs, the last one first: that run may still be open,
unless it is a string. -/
inductive Building (typeOf : Bytes → KeyType) : List (Bytes × Nat) → KeyDescriptorBuilder → Prop
  | idle (rs : List (Bytes × Nat)) (h : ∀ run ∈ rs.head?, typeOf run.1 = .kString) :
    Building typeOf rs { descriptorBatch := rs.reverse.map (render typeOf) }
  | pending (key : Bytes) (n : Nat) (rest : List (Bytes × Nat)) (hk : key ≠ [])
    (ht : typeOf key ≠ .kString) (hl : IsLoaded (typeOf key)) :
    Building typeOf ((key, n) :: rest) {
      currentPrefix := rawPrefix (typeOf key) key
      currentKey := key
      descriptor := { keyType := typeOf key, sz := n }
      descriptorBatch := rest.reverse.map (render typeOf) }

variable {typeOf : Bytes → KeyType} {rs : List (Bytes × Nat)} {b : KeyDescriptorBuilder}
  {key : Bytes}

/-- The open run, if any, is closed. -/
theorem Building.append (h : Building typeOf rs b) :
    b.appendToWriteBatch = .ok { descriptorBatch := rs.reverse.map (render typeOf) } := by
  cases h with
  | idle rs h => rfl
  | pending key n rest hk ht hl =>
    unfold appendToWriteBatch
    dsimp only
    rw [show key.isEmpty = false by simpa using hk, serialize_size hl, List.reverse_cons,
      List.map_append]
    rfl

theorem visit_internal (b : KeyDescriptorBuilder) (rest value : Bytes) :
    visit b (95 :: rest, value) = .ok b := rfl

theorem visit_string (b : KeyDescriptorBuilder) (key value : Bytes) :
    visit b ((StoreKey.string key).toRaw, value) =
      b.appendToWriteBatch >>= fun b => appendToWriteBatch { b with
        currentKey := key
        descriptor := { b.descriptor with keyType := .kString, sz := value.length } } := rfl

/-- What the reverse locator reads from a record that has a prefix. -/
structure ReadsRecord (slice : Bytes) (type : KeyType) (key : Bytes) (index : Bool)
    (r : ReverseLocator) : Prop where
  ofSlice_eq : ReverseLocator.ofSlice slice = .ok r
  first : ∃ rest, slice = type.toChar :: rest
  keyType_eq : r.getKeyType = type
  originalKey_eq : r.getOriginalKey = .ok key
  rawPrefix_eq : r.getRawPrefixUntilBoundary = .ok (rawPrefix type key)
  index_eq : r.isLocalityIndex = .ok index

theorem visit_prefixed (b : KeyDescriptorBuilder) {slice : Bytes} {type : KeyType} {index : Bool}
    {r : ReverseLocator} (hl : IsLoaded type) (ht : type ≠ .kString)
    (h : ReadsRecord slice type key index r) (value : Bytes) :
    visit b (slice, value) = do
      let b ← if b.currentPrefix ≠ rawPrefix type key then do
          let b ← b.appendToWriteBatch
          pure { b with
            currentPrefix := rawPrefix type key
            currentKey := key
            descriptor := { b.descriptor with keyType := type, sz := 0 } }
        else pure b
      if index then return b
      else return { b with descriptor := { b.descriptor with sz := sum64 b.descriptor.sz 1 } } := by
  obtain ⟨rest, hs⟩ := h.first
  have hc : charAt slice 0 = .ok type.toChar := by
    rw [hs]
    rfl
  have hn : type.toChar ≠ 95 ∧ type ≠ .kParseError := by
    rcases hl with rfl | rfl | rfl | rfl <;> decide
  unfold visit
  dsimp only
  rw [bind_of_ok hc, if_neg hn.1, bind_of_ok h.ofSlice_eq, h.keyType_eq, if_neg hn.2, if_neg ht,
    bind_of_ok h.rawPrefix_eq]
  simp only [bind_of_ok h.originalKey_eq, h.index_eq]
  rfl

theorem Building.visit_string (h : Building typeOf rs b) (hk : key ≠ [])
    (ht : typeOf key = .kString) (hn : ∀ run ∈ rs.head?, run.1 ≠ key) (value : Bytes) :
    ∃ b', visit b ((StoreKey.string key).toRaw, value) = .ok b' ∧
      Building typeOf (addRun rs (key, value.length)) b' := by
  have hadd : addRun rs (key, value.length) = (key, value.length) :: rs := by
    unfold addRun
    split
    · rfl
    · rename_i g n rest
      rw [if_neg (hn (g, n) rfl)]
  have hb : ({ descriptorBatch := (addRun rs (key, value.length)).reverse.map (render typeOf) } :
      KeyDescriptorBuilder) =
      { descriptorBatch := rs.reverse.map (render typeOf) ++
          [(.descriptor key, KeyType.kString.toChar :: bigInt value.length)] } := by
    rw [hadd, List.reverse_cons, List.map_append, List.map_singleton]
    unfold render
    rw [ht]
  refine ⟨{ descriptorBatch := (addRun rs (key, value.length)).reverse.map (render typeOf) }, ?_,
    .idle _ fun run hr => ?_⟩
  · rw [KeyDescriptorBuilder.visit_string, bind_of_ok h.append, hb]
    unfold appendToWriteBatch
    dsimp only
    rw [show key.isEmpty = false by simpa using hk, serialize_size (.inl rfl)]
    rfl
  · rw [hadd] at hr
    cases hr
    exact ht

/-- Two keys of one type have two prefixes. -/
theorem rawPrefix_injective {type type' : KeyType} {key key' : Bytes}
    (h : rawPrefix type key = rawPrefix type' key') : key = key' := by
  have he : escapeHashes key ++ [hash, hash] = escapeHashes key' ++ [hash, hash] :=
    (List.cons.inj h).2
  have hp : escapeHashes key ++ [hash, hash] <+: escapeHashes key' ++ hash :: hash :: [] :=
    ⟨[], by rw [List.append_nil, he]⟩
  rcases (escaped_prefix_iff key key' []).mp hp with hk | ⟨stem, ⟨rfl, rfl⟩ | ⟨-, -, hc⟩⟩
  · exact hk
  · -- an escaped '#' is longer than a '|'
    have hlen := congrArg List.length he
    simp [escapeHashes_append, escapeHashes_of_ne bar_ne_hash] at hlen
  · cases hc

theorem Building.visit_prefixed (h : Building typeOf rs b) (hk : key ≠ [])
    (hl : IsLoaded (typeOf key)) (ht : typeOf key ≠ .kString) {slice : Bytes} {index : Bool}
    {r : ReverseLocator} (hr : ReadsRecord slice (typeOf key) key index r)
    (hfit : ∀ run ∈ rs.head?, run.1 = key → index = false → run.2 + 1 < 2 ^ 63) (value : Bytes) :
    ∃ b', visit b (slice, value) = .ok b' ∧
      Building typeOf (addRun rs (key, if index then 0 else 1)) b' := by
  -- the run that is open after the boundary was looked at
  have hopen : ∀ (n : Nat) (rest : List (Bytes × Nat)), (index = false → n + 1 < 2 ^ 63) → ∃ b',
      (if index then Except.ok {
          currentPrefix := rawPrefix (typeOf key) key
          currentKey := key
          descriptor := { keyType := typeOf key, sz := n }
          descriptorBatch := rest.reverse.map (render typeOf) }
        else Except.ok {
          currentPrefix := rawPrefix (typeOf key) key
          currentKey := key
          descriptor := { keyType := typeOf key, sz := sum64 n 1 }
          descriptorBatch := rest.reverse.map (render typeOf) } :
        Except Fault KeyDescriptorBuilder) = .ok b' ∧
      Building typeOf ((key, n + if index then 0 else 1) :: rest) b' := by
    intro n rest hn
    cases index with
    | true => exact ⟨_, rfl, .pending key n rest hk ht hl⟩
    | false =>
      have hn := hn rfl
      have h64 : sum64 n 1 = ((n + 1 : Nat) : Int) := signed_of_fits (by omega) (by omega)
      rw [h64]
      exact ⟨_, rfl, .pending key (n + 1) rest hk ht hl⟩
  have hnew : b.currentPrefix ≠ rawPrefix (typeOf key) key →
      addRun rs (key, if index then 0 else 1) = (key, if index then 0 else 1) :: rs →
      ∃ b', visit b (slice, value) = .ok b' ∧
        Building typeOf (addRun rs (key, if index then 0 else 1)) b' := by
    intro hp hadd
    obtain ⟨b', hb', hbuild⟩ := hopen 0 rs (fun _ => by decide)
    rw [Nat.zero_add] at hbuild
    refine ⟨b', ?_, hadd ▸ hbuild⟩
    rw [← hb', KeyDescriptorBuilder.visit_prefixed b hl ht hr, if_pos hp, bind_of_ok h.append]
    rfl
  cases h with
  | idle rs h =>
    refine hnew (fun hp => appendEscapedString_length_ne_zero _ _ (congrArg List.length hp).symm) ?_
    unfold addRun
    split
    · rfl
    · rename_i g n rest
      rw [if_neg]
      intro hg
      have hs := h (g, n) rfl
      dsimp only at hg hs
      rw [hg] at hs
      exact ht hs
  | pending key' n rest hk' ht' hl' =>
    by_cases he : key' = key
    · subst he
      obtain ⟨b', hb', hbuild⟩ := hopen n rest (hfit (key', n) rfl rfl)
      refine ⟨b', ?_, ?_⟩
      · rw [← hb', KeyDescriptorBuilder.visit_prefixed _ hl ht hr,
          if_neg (not_not.mpr rfl)]
        rfl
      · unfold addRun
        dsimp only
        rw [if_pos rfl]
        exact hbuild
    · refine hnew (fun hp => he (rawPrefix_injective hp)) ?_
      unfold addRun
      dsimp only
      rw [if_neg he]

/-! ## What is read from the records -/

theorem readsRecord_field {type : KeyType} {key name : Bytes} (hb : type.bearsFields = true)
    (h : FieldKeyDecodes type key name) :
    ∃ r, ReadsRecord (StoreKey.field type key name).toRaw type key false r := by
  obtain ⟨l, r, hl, hr, ht, ho, -, hp⟩ := h
  obtain ⟨-, hsize, hview⟩ := FieldLocator.ofField_ok hb hl
  rw [FieldLocator.toView, hview] at hr
  have hne : r.keyType ≠ .kLocalityHash := by
    intro hc
    rw [ReverseLocator.getKeyType, hc] at ht
    rw [← ht] at hb
    cases hb
  refine ⟨r, hr, ⟨_, rfl⟩, ht, ho, ?_, ?_⟩
  · rw [hp, FieldLocator.getPrefix, hview, hsize, List.take_left]
    rfl
  · unfold ReverseLocator.isLocalityIndex
    rw [if_pos hne]
    rfl

theorem readsRecord_locality (kind : InternalLocalityFieldType) {key : Bytes} (hk : key ≠ [])
    (rest : Bytes) :
    ∃ r, ReadsRecord (localityPrefix kind key ++ rest) .kLocalityHash key (kind = .kIndex) r := by
  have hv : localityPrefix kind key ++ rest = KeyType.kLocalityHash.toChar ::
      (escapeHashes key ++ (hash :: hash :: kind.toChar :: rest)) := localityPrefix_append kind key rest
  have hl : ¬ EndIsLost key (kind.toChar :: rest) := by
    rintro ⟨-, hc | hc⟩
    · cases hc
    · have hm : kind.toChar ≠ hash := by cases kind <;> decide
      exact hm (Option.some.inj hc)
  obtain ⟨e, he, hread⟩ := EscapedPrefixExtractor.parse_reads hk hl
  have hb : e.boundary ≠ 0 := by
    rw [hread.boundary]
    omega
  have ho : ReverseLocator.ofSlice (localityPrefix kind key ++ rest) =
      .ok { slice := localityPrefix kind key ++ rest, keyType := .kLocalityHash,
            firstChunk := e } := by
    rw [hv]
    simp [ReverseLocator.ofSlice, charAt, KeyType.toChar, parseKeyType, he, hread.parsed,
      EscapedPrefixExtractor.getBoundary, hb, bind, Except.bind, pure, Except.pure]
  refine ⟨_, ho, ⟨_, hv⟩, rfl, ?_, ?_, ?_⟩
  · simpa [ReverseLocator.getOriginalKey, bind, Except.bind] using hread.original
  · simp [ReverseLocator.getRawPrefixUntilBoundary, EscapedPrefixExtractor.getBoundary,
      hread.parsed, hread.boundary, hv, rawPrefix, appendEscapedString, bind, Except.bind, pure,
      Except.pure, List.take_append]
  · unfold ReverseLocator.isLocalityIndex
    rw [if_neg (not_not.mpr rfl), bind_of_ok hread.suffix]
    cases kind <;> rfl

end KeyDescriptorBuilder

/-! ## The records of a loaded store -/

/-- A key of the store and what is read from it. -/
inductive RecordKind (typeOf : Bytes → KeyType) : StoreKey → Prop
  | internal (k : StoreKey) (rest : Bytes) (hr : k.toRaw = 95 :: rest)
    (hw : ∀ v, weigh (k, v) = none) : RecordKind typeOf k
  | string (key : Bytes) (hk : key ≠ []) (ht : typeOf key = .kString) :
    RecordKind typeOf (.string key)
  | prefixed (k : StoreKey) (key : Bytes) (index : Bool) (r : ReverseLocator) (hk : key ≠ [])
    (hl : IsLoaded (typeOf key)) (ht : typeOf key ≠ .kString)
    (hr : KeyDescriptorBuilder.ReadsRecord k.toRaw (typeOf key) key index r)
    (hw : ∀ v, weigh (k, v) = some (key, if index then 0 else 1)) : RecordKind typeOf k

section

variable {items : List LoadItem}

theorem Sensible.recordKind (h : Sensible items) {k : StoreKey} (hm : k ∈ loaded items) :
    RecordKind (typeIn items) k := by
  rcases mem_loaded.mp hm with rfl | rfl | ⟨item, hi, hk⟩
  · exact .internal _ (ascii "_last-applied") (by decide) fun _ => rfl
  · exact .internal _ (ascii "_clock") (by decide) fun _ => rfl
  have hw := h.whole item hi
  have ht := h.typeIn_eq hi
  have hd := h.decodes item hi
  cases item with
  | ofValue key value =>
    obtain rfl : k = .string key := by simpa [LoadItem.records] using hk
    exact .string key hw.1 ht
  | ofField type key name value =>
    obtain rfl : k = .field type key name := by simpa [LoadItem.records] using hk
    have htype : typeIn items key = type := ht
    have hb : type.bearsFields = true ∧ type ≠ .kString ∧ IsLoaded type := by
      obtain ⟨-, -, rfl | ⟨rfl, -⟩⟩ := hw
      · exact ⟨rfl, by decide, .inr (.inl rfl)⟩
      · exact ⟨rfl, by decide, .inr (.inr (.inl rfl))⟩
    obtain ⟨r, hr⟩ := KeyDescriptorBuilder.readsRecord_field hb.1 hd
    rw [← htype] at hr hb
    exact .prefixed _ key false r hw.1 hb.2.2 hb.2.1 (htype ▸ hr) fun _ => rfl
  | ofLocality key hint name value =>
    have htype : typeIn items key = .kLocalityHash := ht
    have hl : IsLoaded (typeIn items key) := by
      rw [htype]
      exact .inr (.inr (.inr rfl))
    have hne : typeIn items key ≠ .kString := by
      rw [htype]
      decide
    simp only [LoadItem.records, List.map_cons, List.map_nil, List.mem_cons, List.not_mem_nil,
      or_false] at hk
    rcases hk with rfl | rfl
    · obtain ⟨r, hr⟩ := KeyDescriptorBuilder.readsRecord_locality .kData hw.1
        (appendEscapedString [] hint ++ name)
      exact .prefixed _ key false r hw.1 hl hne (htype.symm ▸ hr) fun _ => rfl
    · obtain ⟨r, hr⟩ := KeyDescriptorBuilder.readsRecord_locality .kIndex hw.1 name
      exact .prefixed _ key true r hw.1 hl hne (htype.symm ▸ hr) fun _ => rfl

/-! ## One pass -/

/-- The builder goes over the records one after the other, and holds their runs. -/
theorem foldlM_visit {typeOf : Bytes → KeyType} {es : List (StoreKey × Bytes)}
    (hkind : ∀ e ∈ es, RecordKind typeOf e.1) (hnodup : (es.map Prod.fst).Nodup)
    (htotal : ∀ key, typeOf key ≠ .kString → total key (es.filterMap weigh) < 2 ^ 63) :
    ∃ b, (es.map fun e => (e.1.toRaw, e.2)).foldlM KeyDescriptorBuilder.visit {} = .ok b ∧
      KeyDescriptorBuilder.Building typeOf (runs (es.filterMap weigh)) b := by
  induction es using List.reverseRecOn with
  | nil => exact ⟨_, rfl, .idle [] (by simp)⟩
  | append_singleton es e ih =>
    rw [List.map_append, List.nodup_append] at hnodup
    obtain ⟨hes, -, hne⟩ := hnodup
    have hbefore : ∀ key, typeOf key ≠ .kString → total key (es.filterMap weigh) < 2 ^ 63 := by
      intro key ht
      have := htotal key ht
      rw [List.filterMap_append, total_append] at this
      omega
    obtain ⟨b, hb, hbuild⟩ := ih (fun e he => hkind e (List.mem_append_left _ he)) hes hbefore
    rw [List.map_append, List.foldlM_append, bind_of_ok hb, List.filterMap_append]
    simp only [List.map_singleton, List.foldlM_cons, List.foldlM_nil, bind_pure]
    have hlast : e ∈ es ++ [e] := by simp
    obtain ⟨k, v⟩ := e
    rcases hkind _ hlast with ⟨_, rest, hr, hw⟩ | ⟨key, hk, ht⟩ | ⟨_, key, index, r, hk, hl, ht, hr, hw⟩
    · refine ⟨b, ?_, ?_⟩
      · dsimp only
        rw [hr]
        exact KeyDescriptorBuilder.visit_internal b rest v
      · rw [List.filterMap_cons_none (hw v), List.filterMap_nil, List.append_nil]
        exact hbuild
    · rw [List.filterMap_cons_some (show weigh (StoreKey.string key, v) = some (key, v.length) from rfl),
        List.filterMap_nil, runs_concat]
      refine hbuild.visit_string hk ht (fun run hrun he => ?_) v
      -- no other record has this key
      obtain ⟨rest, hrs⟩ := List.head?_eq_some_iff.mp hrun
      obtain ⟨hm, -⟩ := mem_of_runs_head hrs
      obtain ⟨x, hx, hxe⟩ := List.mem_map.mp hm
      obtain ⟨e', he', hwe⟩ := List.mem_filterMap.mp hx
      rw [he] at hxe
      obtain ⟨k', v'⟩ := e'
      rcases hkind _ (List.mem_append_left _ he') with ⟨_, rest', -, hw'⟩ | ⟨key', -, -⟩ |
        ⟨_, key', index', r', -, -, ht', -, hw'⟩
      · rw [hw' v'] at hwe
        cases hwe
      · have hkk : key' = key := by
          cases hwe
          exact hxe
        subst hkk
        exact hne (.string key') (List.mem_map.mpr ⟨_, he', rfl⟩) (.string key') (by simp) rfl
      · rw [hw' v'] at hwe
        cases hwe
        dsimp only at hxe
        rw [hxe] at ht'
        exact ht' ht
    · rw [List.filterMap_cons_some (hw v), List.filterMap_nil, runs_concat]
      refine hbuild.visit_prefixed hk hl ht hr (fun run hrun he hindex => ?_) v
      obtain ⟨rest, hrs⟩ := List.head?_eq_some_iff.mp hrun
      obtain ⟨-, hle⟩ := mem_of_runs_head hrs
      have hsum := htotal key ht
      rw [List.filterMap_append, total_append, List.filterMap_cons_some (hw v),
        List.filterMap_nil, hindex] at hsum
      have hone : total key [(key, 1)] = 1 := by simp [total]
      rw [if_neg Bool.false_ne_true, hone] at hsum
      rw [he] at hle
      omega

/-! ## The sorted records of a store -/

theorem mem_sortedEntries {store : Store} {k : StoreKey} {v : Bytes} :
    (k, v) ∈ sortedEntries store ↔ store.lookup k = some v := by
  unfold sortedEntries
  rw [List.mem_mergeSort, List.mem_map, ← Option.mem_def, AList.mem_lookup_iff]
  constructor
  · rintro ⟨e, he, h⟩
    cases h
    exact he
  · intro h
    exact ⟨⟨k, v⟩, h, rfl⟩

theorem sortedEntries_keys (store : Store) : ((sortedEntries store).map Prod.fst).Perm store.keys := by
  have h : ((sortedEntries store).map Prod.fst).Perm
      ((store.entries.map fun e => (e.1, e.2)).map Prod.fst) :=
    (List.mergeSort_perm _ _).map Prod.fst
  rw [List.map_map] at h
  exact h

theorem sortedEntries_nodup (store : Store) : ((sortedEntries store).map Prod.fst).Nodup :=
  (sortedEntries_keys store).nodup_iff.mpr store.keys_nodup

theorem sortedEntries_mem {store : Store} {e : StoreKey × Bytes} (h : e ∈ sortedEntries store) :
    e.1 ∈ store := by
  rw [← AList.lookup_isSome, mem_sortedEntries.mp h]
  rfl

section

open ByteOrder

theorem bytesLe_iff {a b : Bytes} : bytesLe a b = true ↔ a ≤ b := by
  unfold bytesLe
  rw [Bool.not_eq_true', ← Bool.not_eq_true, List.lex_eq_true_iff_lt, not_lt]

theorem sortedEntries_sorted (store : Store) :
    (sortedEntries store).Pairwise fun e e' => e.1.toRaw ≤ e'.1.toRaw := by
  have htrans (a b c : StoreKey × Bytes) (hab : bytesLe a.1.toRaw b.1.toRaw = true)
      (hbc : bytesLe b.1.toRaw c.1.toRaw = true) : bytesLe a.1.toRaw c.1.toRaw = true :=
    bytesLe_iff.mpr (le_trans (bytesLe_iff.mp hab) (bytesLe_iff.mp hbc))
  have htotal (a b : StoreKey × Bytes) :
      (bytesLe a.1.toRaw b.1.toRaw || bytesLe b.1.toRaw a.1.toRaw) = true := by
    rw [Bool.or_eq_true, bytesLe_iff, bytesLe_iff]
    exact le_total _ _
  have h := List.pairwise_mergeSort htrans htotal (store.entries.map fun e => (e.1, e.2))
  exact h.imp fun hab => bytesLe_iff.mp hab

/-- Records in strict order are the sorted records of a store that has them and no others. -/
theorem sortedEntries_eq {store : Store} {es : List (StoreKey × Bytes)}
    (hs : es.Pairwise fun e e' => bytesLe e'.1.toRaw e.1.toRaw = false)
    (hp : es.Perm (store.entries.map fun e => (e.1, e.2))) : sortedEntries store = es := by
  have hlt : es.Pairwise fun e e' => e.1.toRaw < e'.1.toRaw := by
    refine hs.imp fun {e e'} h => not_le.mp fun hle => ?_
    rw [bytesLe_iff.mpr hle] at h
    cases h
  have hle : es.Pairwise fun e e' => e.1.toRaw ≤ e'.1.toRaw := hlt.imp le_of_lt
  refine List.Perm.eq_of_pairwise (fun e e' he he' h h' => ?_) (sortedEntries_sorted store) hle
    ((List.mergeSort_perm _ _).trans hp.symm)
  have heq := le_antisymm h h'
  have hmem : e ∈ es := hp.symm.subset ((List.mergeSort_perm _ _).subset he)
  obtain ⟨before, after, rfl⟩ := List.append_of_mem hmem
  rcases List.mem_append.mp he' with hm | hm
  · have := (List.pairwise_append.mp hlt).2.2 e' hm e List.mem_cons_self
    exact absurd heq.symm (ne_of_lt this)
  rcases List.mem_cons.mp hm with rfl | hm
  · rfl
  · have := List.rel_of_pairwise_cons (List.pairwise_append.mp hlt).2.1 hm
    exact absurd heq (ne_of_lt this)

end

/-! ## What the records of a key come to -/

theorem Sensible.typed (h : Sensible items) {k : StoreKey} (hm : k ∈ loaded items) {key : Bytes}
    (ho : k.owner = some key) : k.dataType = some (typeIn items key) := by
  rcases mem_loaded.mp hm with rfl | rfl | ⟨item, hi, hk⟩
  · cases ho
  · cases ho
  · have ht := h.typeIn_eq hi
    cases item with
    | ofValue key' value =>
      obtain rfl : k = .string key' := by simpa [LoadItem.records] using hk
      cases ho
      exact congrArg some ht.symm
    | ofField type key' name value =>
      obtain rfl : k = .field type key' name := by simpa [LoadItem.records] using hk
      cases ho
      exact congrArg some ht.symm
    | ofLocality key' hint name value =>
      simp only [LoadItem.records, List.map_cons, List.map_nil, List.mem_cons, List.not_mem_nil,
        or_false] at hk
      rcases hk with rfl | rfl
      · cases ho
        exact congrArg some ht.symm
      · cases ho
        exact congrArg some ht.symm

/-- What a record adds to the size of a key. -/
def weightFor (key : Bytes) (e : StoreKey × Bytes) : Nat := total key (weigh e).toList

theorem weightFor_some {key g : Bytes} {n : Nat} {e : StoreKey × Bytes}
    (h : weigh e = some (g, n)) : weightFor key e = if g = key then n else 0 := by
  unfold weightFor
  rw [h]
  exact total_singleton (g, n)

theorem weightFor_none {key : Bytes} {e : StoreKey × Bytes} (h : weigh e = none) :
    weightFor key e = 0 := by
  unfold weightFor
  rw [h]
  rfl

theorem total_weigh (key : Bytes) (es : List (StoreKey × Bytes)) :
    total key (es.filterMap weigh) = (es.map (weightFor key)).sum := by
  induction es with
  | nil => rfl
  | cons e es ih =>
    rw [List.map_cons, List.sum_cons, ← ih]
    rcases hw : weigh e with _ | ⟨g, n⟩
    · rw [List.filterMap_cons_none hw, weightFor_none hw, Nat.zero_add]
    · rw [List.filterMap_cons_some hw, ← List.singleton_append, total_append, total_singleton,
        weightFor_some hw]

/-- Records that each count for one. -/
theorem total_of_count {key : Bytes} {es : List (StoreKey × Bytes)} {p : StoreKey → Bool}
    (h : ∀ e ∈ es, weightFor key e = if p e.1 then 1 else 0) :
    total key (es.filterMap weigh) = (es.map Prod.fst).countP p := by
  rw [total_weigh]
  induction es with
  | nil => rfl
  | cons e es ih =>
    rw [List.map_cons, List.sum_cons, List.map_cons, List.countP_cons,
      ih fun e' he => h e' (List.mem_cons_of_mem _ he), h e List.mem_cons_self]
    exact Nat.add_comm _ _

theorem owner_of_weigh {e : StoreKey × Bytes} {x : Bytes × Nat} (h : weigh e = some x) :
    e.1.owner = some x.1 := by
  obtain ⟨k, v⟩ := e
  cases k <;> cases h <;> rfl

theorem weightFor_of_ne {key : Bytes} {e : StoreKey × Bytes} (h : e.1.owner ≠ some key) :
    weightFor key e = 0 := by
  rcases hw : weigh e with _ | ⟨g, n⟩
  · exact weightFor_none hw
  · rw [weightFor_some hw, if_neg]
    rintro rfl
    exact h (owner_of_weigh hw)

theorem count_sortedEntries (store : Store) (p : StoreKey → Bool) :
    ((sortedEntries store).map Prod.fst).countP p = count store p :=
  (sortedEntries_keys store).countP_eq p

theorem Sensible.isLoaded_typeIn (h : Sensible items) (key : Bytes) :
    IsLoaded (typeIn items key) := by
  unfold typeIn
  rcases hf : items.find? (fun i => i.key = key) with _ | item
  · rw [hf]
    exact .inl rfl
  · rw [hf]
    exact (h.whole item (List.mem_of_find?_eq_some hf)).isLoaded

/-- The records of a hash or a set are its fields. -/
theorem Sensible.total_fields (h : Sensible items) {key : Bytes} {type : KeyType}
    (ht : typeIn items key = type) (hb : type.bearsFields = true) :
    total key ((sortedEntries (loaded items)).filterMap weigh) =
      count (loaded items) (isField type key) := by
  rw [total_of_count (p := isField type key), count_sortedEntries]
  intro e he
  by_cases ho : e.1.owner = some key
  · have hd := h.typed (sortedEntries_mem he) ho
    rw [ht] at hd
    obtain ⟨k, v⟩ := e
    cases k <;> cases ho <;> cases hd
    · cases hb
    · rw [weightFor_some rfl, if_pos rfl, if_pos (isField_self _ _ _)]
    · cases hb
    · cases hb
    · cases hb
    · cases hb
  · rw [weightFor_of_ne ho, if_neg]
    exact fun hp => ho (owner_of_isField hp).1

/-- The records of a locality hash are its fields, and indices that do not count. -/
theorem Sensible.total_localities (h : Sensible items) {key : Bytes}
    (ht : typeIn items key = .kLocalityHash) :
    total key ((sortedEntries (loaded items)).filterMap weigh) =
      count (loaded items) (isLocalityField key) := by
  rw [total_of_count (p := isLocalityField key), count_sortedEntries]
  intro e he
  by_cases ho : e.1.owner = some key
  · have hd := h.typed (sortedEntries_mem he) ho
    have hm := sortedEntries_mem he
    rw [ht] at hd
    obtain ⟨k, v⟩ := e
    cases k <;> cases ho <;> cases hd
    · obtain ⟨value, hi⟩ := mem_field.mp hm
      obtain ⟨-, -, hc | ⟨hc, -⟩⟩ := h.whole _ hi
      · cases hc
      · cases hc
    · rw [weightFor_some rfl, if_pos rfl, if_pos (by simp [isLocalityField])]
    · rw [weightFor_some rfl, if_pos rfl, if_neg (by simp [isLocalityField])]
  · rw [weightFor_of_ne ho, if_neg]
    exact fun hp => ho (owner_of_isLocalityField hp).1

/-- A string has one record. -/
theorem Sensible.total_string (h : Sensible items) {key : Bytes}
    (ht : typeIn items key = .kString) :
    (total key ((sortedEntries (loaded items)).filterMap weigh) : Int) =
      sizeOfKey (loaded items) key .kString := by
  have honly : ∀ e ∈ sortedEntries (loaded items), e.1 ≠ .string key → weightFor key e = 0 := by
    intro e he hne
    by_cases ho : e.1.owner = some key
    · have hd := h.typed (sortedEntries_mem he) ho
      have hm := sortedEntries_mem he
      rw [ht] at hd
      obtain ⟨k, v⟩ := e
      cases k <;> cases ho <;> cases hd
      · exact absurd rfl hne
      · obtain ⟨value, hi⟩ := mem_field.mp hm
        obtain ⟨-, -, hc | ⟨hc, -⟩⟩ := h.whole _ hi
        · cases hc
        · cases hc
    · exact weightFor_of_ne ho
  have hzero : ∀ es : List (StoreKey × Bytes), (∀ e ∈ es, weightFor key e = 0) →
      (es.map (weightFor key)).sum = 0 := by
    intro es hes
    rw [List.sum_eq_zero_iff]
    intro n hn
    obtain ⟨e, he, rfl⟩ := List.mem_map.mp hn
    exact hes e he
  rw [total_weigh, sizeOfKey_string]
  rcases hv : (loaded items).lookup (.string key) with _ | v
  · rw [hv, hzero]
    · rfl
    · intro e he
      refine honly e he fun hk => ?_
      have hm := sortedEntries_mem he
      rw [hk, ← AList.lookup_isSome, hv] at hm
      cases hm
  · rw [hv]
    obtain ⟨before, after, hes⟩ := List.append_of_mem (mem_sortedEntries.mpr hv)
    have hnodup := sortedEntries_nodup (loaded items)
    rw [hes] at honly hnodup ⊢
    rw [List.map_append, List.map_cons, List.nodup_middle, List.nodup_cons, List.mem_append,
      not_or] at hnodup
    obtain ⟨⟨hb, ha⟩, -⟩ := hnodup
    rw [List.map_append, List.sum_append, List.map_cons, List.sum_cons,
      hzero before fun e he => honly e (by simp [he]) fun hk => hb (List.mem_map.mpr ⟨e, he, hk⟩),
      hzero after fun e he => honly e (by simp [he]) fun hk => ha (List.mem_map.mpr ⟨e, he, hk⟩),
      weightFor_some (show weigh (StoreKey.string key, v) = some (key, v.length) from rfl),
      if_pos rfl, Nat.zero_add, Nat.add_zero]
    rfl

/-- The records of a key come to the size that its descriptor must have. -/
theorem Sensible.total_eq (h : Sensible items) (key : Bytes) :
    (total key ((sortedEntries (loaded items)).filterMap weigh) : Int) =
      sizeOfKey (loaded items) key (typeIn items key) := by
  rcases h.isLoaded_typeIn key with ht | ht | ht | ht
  · rw [ht]
    exact h.total_string ht
  · rw [ht, h.total_fields ht rfl]
    rfl
  · rw [ht, h.total_fields ht rfl]
    rfl
  · rw [ht, h.total_localities ht]
    rfl

/-! ## The descriptors that are built -/

theorem lookup_render {typeOf : Bytes → KeyType} (store : Store) (rs : List (Bytes × Nat))
    (key : Bytes) :
    (putAll store (rs.reverse.map (render typeOf))).lookup (.descriptor key) =
      ((lookupRun key rs).map fun n : Nat => (typeOf key).toChar :: bigInt n).or
        (store.lookup (.descriptor key)) := by
  induction rs with
  | nil => rfl
  | cons run rs ih =>
    obtain ⟨g, n⟩ := run
    rw [List.reverse_cons, List.map_append, putAll_append]
    show AList.lookup _ (AList.insert (StoreKey.descriptor g) ((typeOf g).toChar :: bigInt n)
      (putAll store (rs.reverse.map (render typeOf)))) = _
    by_cases hg : g = key
    · subst hg
      rw [AList.lookup_insert, lookupRun_self]
      rfl
    · rw [AList.lookup_insert_ne fun hc => hg (StoreKey.descriptor.inj hc).symm, ih,
        lookupRun_of_ne hg]

theorem lookup_render_of_ne {typeOf : Bytes → KeyType} (store : Store) (rs : List (Bytes × Nat))
    {k : StoreKey} (hk : ∀ key, k ≠ .descriptor key) :
    (putAll store (rs.reverse.map (render typeOf))).lookup k = store.lookup k := by
  apply lookup_putAll_of_notMem
  rw [List.map_map]
  intro hm
  obtain ⟨run, -, he⟩ := List.mem_map.mp hm
  exact hk run.1 he.symm

/-- What bulkload ends with: the data, and one descriptor for each run, the last one of each
key. -/
theorem Sensible.finalizeBulkload_eq (h : Sensible items) (hroom : items.length < 2 ^ 63) :
    finalizeBulkload (loaded items) = .ok (putAll (loaded items)
      ((runs ((sortedEntries (loaded items)).filterMap weigh)).reverse.map
        (render (typeIn items)))) := by
  obtain ⟨b, hb, hbuild⟩ := foldlM_visit
    (fun e (he : e ∈ sortedEntries (loaded items)) => h.recordKind (sortedEntries_mem he))
    (sortedEntries_nodup _) fun key _ => by
      have h1 := h.total_eq key
      have h2 := h.sizeOfKey_lt hroom (h.isLoaded_typeIn key) key
      omega
  unfold finalizeBulkload KeyDescriptorBuilder.build rawRecords
  rw [bind_of_ok hb, bind_of_ok hbuild.append]
  rfl

end

end quarkdb
