-- The way back from a rocksdb key to the redis key and the field in it. The
-- end of a name is found by looking one byte back and two bytes ahead, which
-- fails only for a name that ends in '|' before an empty field or a '#'.
import QuarkDB.KeyLocators

namespace quarkdb

/-! ## Extracting the prefix -/

/-- `key[key.size() - 1] = '#'`. -/
def replaceLastWithHash (key : Bytes) : Except Fault Bytes :=
  match key with
  | [] => .error .outOfBounds
  | c :: rest => .ok ((c :: rest).dropLast ++ [hash])

/-- The loop of `extractPrefix` from index `i` on: `prev` is `dkey[i-1]`, absent
at the start, and the list is what stands from `dkey[i]` on. The result is the
boundary, which is 0 for a parse error, and the key. -/
def extractPrefixLoop (i : Nat) (prev : Option UInt8) (key : Bytes) :
    Bytes → Except Fault (Nat × Bytes)
  | [] => .ok (0, key)
  | c :: rest =>
    if c = hash then
      match rest, prev with
      | [], _ => .error .outOfBounds
      | _ :: _, none => .error .outOfBounds
      | next :: after, some p => do
        -- Is this the boundary?
        if next = hash ∧ p ≠ bar then
          return (i + 2, key)
        if next = hash ∧ p = bar ∧ after ≠ [] ∧ after.head? ≠ some hash then
          return (i + 2, key)
        if next = hash ∧ p = bar ∧ after.head? = some hash then
          return (i + 3, ← replaceLastWithHash key)
        qdbAssert (p = bar) "dkey[i-1] == '|'"
        let key ← replaceLastWithHash key
        extractPrefixLoop (i + 1) (some c) key (next :: after)
    else
      extractPrefixLoop (i + 1) (some c) (key ++ [c]) rest

def extractPrefix (dkey : Bytes) : Except Fault (Nat × Bytes) :=
  extractPrefixLoop 0 none [] dkey

/-- Given a slice containing an escaped prefix, extract the original, unescaped
value and the boundary. -/
structure EscapedPrefixExtractor where
  parsingOk : Bool
  slice : Bytes
  unescaped : Bytes
  boundary : Nat
  deriving Repr, DecidableEq

namespace EscapedPrefixExtractor

/-- The loop of `parse` from index `i` on, with `prev` the byte before it. -/
def parseLoop (slice : Bytes) (i : Nat) (prev : UInt8) :
    Bytes → Except Fault EscapedPrefixExtractor
  | [] => .ok { parsingOk := false, slice, unescaped := [], boundary := 0 }
  | c :: rest =>
    if c = hash ∧ prev = bar then do
      -- The original prefix contains escaped hashes, do heavyweight parsing.
      let (boundary, unescaped) ← extractPrefix slice
      return { parsingOk := boundary != 0, slice, unescaped, boundary }
    else if c = hash ∧ prev = hash then
      -- No escaped hashes: the zero-copy case.
      .ok { parsingOk := true, slice, unescaped := [], boundary := i + 1 }
    else
      parseLoop slice (i + 1) c rest

def parse (slice : Bytes) : Except Fault EscapedPrefixExtractor :=
  match slice with
  | [] => .ok { parsingOk := false, slice := [], unescaped := [], boundary := 0 }
  | c :: rest => parseLoop (c :: rest) 1 c rest

def getOriginalPrefix (e : EscapedPrefixExtractor) : Except Fault Bytes := do
  qdbAssert e.parsingOk "parsingOk"
  if e.unescaped ≠ [] then return e.unescaped
  return e.slice.take (e.boundary - 2)

def getRawSuffix (e : EscapedPrefixExtractor) : Except Fault Bytes := do
  qdbAssert e.parsingOk "parsingOk"
  return e.slice.drop e.boundary

def getBoundary (e : EscapedPrefixExtractor) : Except Fault Nat := do
  qdbAssert e.parsingOk "parsingOk"
  return e.boundary

end EscapedPrefixExtractor

/-- Given an encoded rocksdb key, extract the original key, and the field if
there is one. -/
structure ReverseLocator where
  slice : Bytes
  keyType : KeyType
  firstChunk : EscapedPrefixExtractor
  deriving Repr, DecidableEq

namespace ReverseLocator

/-- A chunk that was not parsed. -/
def noChunk : EscapedPrefixExtractor :=
  { parsingOk := false, slice := [], unescaped := [], boundary := 0 }

/-- The constructor from a slice. -/
def ofSlice (slice : Bytes) : Except Fault ReverseLocator := do
  let c ← charAt slice 0
  let keyType := parseKeyType c
  if keyType = .kParseError ∨ keyType = .kString then
    return { slice, keyType, firstChunk := noChunk }
  let firstChunk ← EscapedPrefixExtractor.parse (slice.drop 1)
  if !firstChunk.parsingOk then
    return { slice, keyType := .kParseError, firstChunk }
  if (← firstChunk.getBoundary) = 0 then
    return { slice, keyType := .kParseError, firstChunk }
  return { slice, keyType, firstChunk }

def getKeyType (r : ReverseLocator) : KeyType := r.keyType

def getOriginalKey (r : ReverseLocator) : Except Fault Bytes := do
  qdbAssert (r.keyType ≠ .kParseError) "keyType != KeyType::kParseError"
  if r.keyType = .kString then return r.slice.drop 1
  r.firstChunk.getOriginalPrefix

def getField (r : ReverseLocator) : Except Fault Bytes := do
  qdbAssert (r.keyType ≠ .kParseError ∧ r.keyType ≠ .kString)
    "keyType != KeyType::kParseError && keyType != KeyType::kString"
  r.firstChunk.getRawSuffix

def getRawPrefixUntilBoundary (r : ReverseLocator) : Except Fault Bytes := do
  qdbAssert (r.keyType ≠ .kParseError ∧ r.keyType ≠ .kString)
    "keyType != KeyType::kParseError && keyType != KeyType::kString"
  return r.slice.take ((← r.firstChunk.getBoundary) + 1)

end ReverseLocator

/-! ## What the loop of `extractPrefix` reads -/

theorem extractPrefixLoop_of_ne {c : UInt8} (hc : c ≠ hash) (i : Nat) (prev : Option UInt8)
    (key rest : Bytes) :
    extractPrefixLoop i prev key (c :: rest) =
      extractPrefixLoop (i + 1) (some c) (key ++ [c]) rest := by
  rw [extractPrefixLoop.eq_def]
  simp [hc]

@[simp] theorem replaceLastWithHash_append (key : Bytes) (c : UInt8) :
    replaceLastWithHash (key ++ [c]) = .ok (key ++ [hash]) := by
  cases key with
  | nil => rfl
  | cons d key =>
    rw [List.cons_append, replaceLastWithHash, ← List.cons_append, List.dropLast_concat]

/-- A byte of an escaped name or after it that is not '#' is where reading goes on. -/
theorem escapeHashes_append_eq_cons (stem : Bytes) {d : UInt8} (hd : d ≠ hash) (rest : Bytes) :
    ∃ e tail, escapeHashes stem ++ d :: rest = e :: tail ∧ e ≠ hash := by
  cases stem with
  | nil => exact ⟨d, rest, rfl, hd⟩
  | cons c stem =>
    by_cases hc : c = hash
    · subst hc; exact ⟨bar, _, by simp; rfl, bar_ne_hash⟩
    · exact ⟨c, _, by simp [hc]; rfl, hc⟩

/-- The two bytes of an escaped '#' are read as one '#' when the name goes on. -/
theorem extractPrefixLoop_escaped_hash {e : UInt8} (he : e ≠ hash) (i : Nat)
    (prev : Option UInt8) (key tail : Bytes) :
    extractPrefixLoop i prev key (bar :: hash :: e :: tail) =
      extractPrefixLoop (i + 2) (some hash) (key ++ [hash]) (e :: tail) := by
  rw [extractPrefixLoop_of_ne bar_ne_hash, extractPrefixLoop]
  simp [he, bind, Except.bind]

/-- Reading the stem of a name gives the stem back. -/
theorem extractPrefixLoop_stem (stem : Bytes) {d : UInt8} (hd : d ≠ hash) (rest : Bytes) (i : Nat)
    (prev : Option UInt8) (key : Bytes) :
    ∃ prev', extractPrefixLoop i prev key (escapeHashes stem ++ d :: rest) =
      extractPrefixLoop (i + (escapeHashes stem).length) prev' (key ++ stem) (d :: rest) := by
  induction stem generalizing i prev key with
  | nil => exact ⟨prev, by simp⟩
  | cons c stem ih =>
    by_cases hc : c = hash
    · subst hc
      obtain ⟨e, tail, ht, he⟩ := escapeHashes_append_eq_cons stem hd rest
      obtain ⟨prev', h'⟩ := ih (i + 2) (some hash) (key ++ [hash])
      refine ⟨prev', ?_⟩
      rw [ht] at h'
      rw [escapeHashes_hash, List.cons_append, List.cons_append, ht,
        extractPrefixLoop_escaped_hash he, h']
      simp only [List.length_cons, List.append_assoc, List.singleton_append]
      congr 1
      omega
    · obtain ⟨prev', h'⟩ := ih (i + 1) (some c) (key ++ [c])
      refine ⟨prev', ?_⟩
      rw [escapeHashes_of_ne hc, List.cons_append, extractPrefixLoop_of_ne hc, h']
      simp only [List.length_cons, List.append_assoc, List.singleton_append]
      congr 1
      omega

/-- The last byte of a name, and the end of the name, when the byte is neither
'#' nor '|'. -/
theorem extractPrefixLoop_end {c : UInt8} (hc : c ≠ hash) (hb : c ≠ bar) (i : Nat)
    (prev : Option UInt8) (key f : Bytes) :
    extractPrefixLoop i prev key (c :: hash :: hash :: f) = .ok (i + 3, key ++ [c]) := by
  rw [extractPrefixLoop_of_ne hc, extractPrefixLoop]
  simp [hb, pure, Except.pure]

/-- The end of a name that ends in '#'. -/
theorem extractPrefixLoop_end_hash (i : Nat) (prev : Option UInt8) (key f : Bytes) :
    extractPrefixLoop i prev key (bar :: hash :: hash :: hash :: f) =
      .ok (i + 4, key ++ [hash]) := by
  rw [extractPrefixLoop_of_ne bar_ne_hash, extractPrefixLoop]
  simp [bind, Except.bind, pure, Except.pure]

/-- The end of a name that ends in '|', before a field that starts with another
byte than '#'. -/
theorem extractPrefixLoop_end_bar {e : UInt8} (he : e ≠ hash) (i : Nat) (prev : Option UInt8)
    (key f : Bytes) :
    extractPrefixLoop i prev key (bar :: hash :: hash :: e :: f) = .ok (i + 3, key ++ [bar]) := by
  rw [extractPrefixLoop_of_ne bar_ne_hash, extractPrefixLoop]
  simp [he, pure, Except.pure]

/-- The end of a name that ends in '|', before an empty field: the second '#' is
taken for a byte of the name, and the loop reads past the end. -/
theorem extractPrefixLoop_end_bar_nil (i : Nat) (prev : Option UInt8) (key : Bytes) :
    extractPrefixLoop i prev key [bar, hash, hash] = .error .outOfBounds := by
  rw [extractPrefixLoop_of_ne bar_ne_hash, extractPrefixLoop]
  simp [bind, Except.bind, extractPrefixLoop]

/-! ## What `extractPrefix` returns -/

/-- The end of the name is lost: it ends in '|', and the field is empty or
starts with '#'. -/
def EndIsLost (name field : Bytes) : Prop :=
  name.getLast? = some bar ∧ (field = [] ∨ field.head? = some hash)

theorem extractPrefix_escaped {k f : Bytes} (hk : k ≠ []) (hl : ¬ EndIsLost k f) :
    extractPrefix (escapeHashes k ++ (hash :: hash :: f)) =
      .ok ((escapeHashes k).length + 2, k) := by
  obtain ⟨stem, c, rfl⟩ : ∃ stem c, k = stem ++ [c] :=
    ⟨k.dropLast, k.getLast hk, (List.dropLast_concat_getLast hk).symm⟩
  rw [extractPrefix, escapeHashes_append, List.append_assoc]
  by_cases hc : c = hash
  · subst hc
    obtain ⟨prev', h'⟩ := extractPrefixLoop_stem stem bar_ne_hash (hash :: hash :: hash :: f) 0
      none []
    rw [escapeHashes_hash, escapeHashes_nil, List.cons_append, List.cons_append, List.nil_append,
      h', extractPrefixLoop_end_hash]
    simp
  · obtain ⟨prev', h'⟩ := extractPrefixLoop_stem stem hc (hash :: hash :: f) 0 none []
    rw [escapeHashes_of_ne hc, escapeHashes_nil, List.cons_append, List.nil_append, h']
    by_cases hb : c = bar
    · subst hb
      cases f with
      | nil => simp [EndIsLost] at hl
      | cons e f =>
        have he : e ≠ hash := by simpa [EndIsLost] using hl
        rw [extractPrefixLoop_end_bar he]
        simp
    · rw [extractPrefixLoop_end hc hb]
      simp

/-- Where the end is lost, `extractPrefix` gives back another name. -/
theorem extractPrefix_lost {k f : Bytes} (hl : EndIsLost k f) {b : Nat} {u : Bytes}
    (h : extractPrefix (escapeHashes k ++ (hash :: hash :: f)) = .ok (b, u)) :
    u ≠ [] ∧ u ≠ k := by
  obtain ⟨hlast, hf⟩ := hl
  obtain ⟨stem, rfl⟩ : ∃ stem, k = stem ++ [bar] := List.getLast?_eq_some_iff.mp hlast
  rw [extractPrefix, escapeHashes_append, List.append_assoc, escapeHashes_of_ne bar_ne_hash,
    escapeHashes_nil, List.cons_append, List.nil_append] at h
  obtain ⟨prev', h'⟩ := extractPrefixLoop_stem stem bar_ne_hash (hash :: hash :: f) 0 none []
  rw [h'] at h
  cases f with
  | nil => rw [extractPrefixLoop_end_bar_nil] at h; cases h
  | cons e f =>
    obtain rfl : e = hash := by simpa using hf
    rw [extractPrefixLoop_end_hash] at h
    cases h
    exact ⟨by simp, by simp [bar_ne_hash.symm]⟩

/-! ## What `parse` returns -/

theorem escapeHashes_of_not_mem {n : Bytes} (hn : hash ∉ n) : escapeHashes n = n := by
  induction n with
  | nil => rfl
  | cons c n ih =>
    simp only [List.mem_cons, not_or] at hn
    rw [escapeHashes_of_ne (Ne.symm hn.1), ih hn.2]

namespace EscapedPrefixExtractor

/-- The heavyweight path of `parse`. -/
def parseHeavy (slice : Bytes) : Except Fault EscapedPrefixExtractor := do
  let (boundary, unescaped) ← extractPrefix slice
  return { parsingOk := boundary != 0, slice, unescaped, boundary }

/-- The loop takes the heavyweight path when the name has a '#' or ends in '|',
and the zero-copy path when it has not. -/
theorem parseLoop_escaped (slice : Bytes) (i : Nat) {prev : UInt8} (hp : prev ≠ hash)
    (n f : Bytes) :
    parseLoop slice i prev (escapeHashes n ++ (hash :: hash :: f)) =
      if hash ∈ n ∨ (prev :: n).getLast? = some bar then parseHeavy slice
      else .ok { parsingOk := true, slice, unescaped := [], boundary := i + n.length + 2 } := by
  induction n generalizing i prev with
  | nil =>
    by_cases hb : prev = bar
    · simp [parseLoop, hb, parseHeavy]
    · simp [parseLoop, hb, hp, bar_ne_hash.symm]
  | cons c n ih =>
    by_cases hc : c = hash
    · -- The '|' of the escape is passed, and the '#' after it is seen.
      subst hc
      simp [parseLoop, bar_ne_hash, parseHeavy]
    · have hm : hash ∈ c :: n ↔ hash ∈ n := by simp [Ne.symm hc]
      rw [escapeHashes_of_ne hc, List.cons_append, parseLoop]
      simp only [hc, false_and, if_false, hm, List.length_cons, List.getLast?_cons_cons]
      rw [ih (i + 1) hc]
      simp only [Nat.add_assoc, Nat.add_comm 1]

theorem parse_escaped {k : Bytes} (hk : k ≠ []) (f : Bytes) :
    parse (escapeHashes k ++ (hash :: hash :: f)) =
      if hash ∈ k ∨ k.getLast? = some bar then parseHeavy (escapeHashes k ++ (hash :: hash :: f))
      else .ok { parsingOk := true, slice := escapeHashes k ++ (hash :: hash :: f),
                 unescaped := [], boundary := k.length + 2 } := by
  cases k with
  | nil => exact absurd rfl hk
  | cons c k =>
    by_cases hc : c = hash
    · subst hc
      simp [parse, parseLoop, parseHeavy]
    · have hm : hash ∈ c :: k ↔ hash ∈ k := by simp [Ne.symm hc]
      rw [escapeHashes_of_ne hc, List.cons_append, parse, parseLoop_escaped _ _ hc]
      simp only [hm, List.length_cons]
      simp only [Nat.add_comm 1]

/-- A chunk that was read as the name `k` with `f` after it. -/
structure Reads (e : EscapedPrefixExtractor) (k f : Bytes) : Prop where
  parsed : e.parsingOk = true
  boundary : e.boundary = (escapeHashes k).length + 2
  original : e.getOriginalPrefix = .ok k
  suffix : e.getRawSuffix = .ok f

theorem parse_reads {k f : Bytes} (hk : k ≠ []) (hl : ¬ EndIsLost k f) :
    ∃ e, parse (escapeHashes k ++ (hash :: hash :: f)) = .ok e ∧ e.Reads k f := by
  rw [parse_escaped hk]
  split
  · simp only [parseHeavy, extractPrefix_escaped hk hl, bind, Except.bind, pure, Except.pure]
    refine ⟨_, rfl, by simp, rfl, ?_, ?_⟩
    · simp [getOriginalPrefix, hk, bind, Except.bind, pure, Except.pure]
    · simp [getRawSuffix, bind, Except.bind, pure, Except.pure, List.drop_append]
  · rename_i h
    have he : escapeHashes k = k := escapeHashes_of_not_mem fun hm => h (.inl hm)
    rw [he]
    refine ⟨_, rfl, rfl, by rw [he], ?_, ?_⟩
    · simp [getOriginalPrefix, bind, Except.bind, pure, Except.pure]
    · simp [getRawSuffix, bind, Except.bind, pure, Except.pure, List.drop_append]

theorem parse_lost {k f : Bytes} (hl : EndIsLost k f) {e : EscapedPrefixExtractor}
    (he : parse (escapeHashes k ++ (hash :: hash :: f)) = .ok e) :
    e.getOriginalPrefix ≠ .ok k := by
  have hk : k ≠ [] := by
    rintro rfl
    cases hl.1
  rw [parse_escaped hk, if_pos (.inr hl.1), parseHeavy] at he
  cases hx : extractPrefix (escapeHashes k ++ (hash :: hash :: f)) with
  | error err => simp [hx, bind, Except.bind] at he
  | ok r =>
    obtain ⟨b, u⟩ := r
    obtain ⟨hu, huk⟩ := extractPrefix_lost hl hx
    simp only [hx, bind, Except.bind, pure, Except.pure, Except.ok.injEq] at he
    subst he
    by_cases hb : b = 0
    · simp [getOriginalPrefix, hb, bind, Except.bind]
    · have hb' : (b != 0) = true := by simpa using hb
      simp [getOriginalPrefix, hb', hu, huk, bind, Except.bind, pure, Except.pure]

end EscapedPrefixExtractor

/-! ## Decoding undoes encoding -/

/-- The reverse locator gives back the type, the key, the field and the prefix
that the locator was made from. -/
def FieldKeyDecodes (t : KeyType) (k f : Bytes) : Prop :=
  ∃ l r, FieldLocator.ofField t k f = .ok l ∧ ReverseLocator.ofSlice l.toView = .ok r ∧
    r.getKeyType = t ∧ r.getOriginalKey = .ok k ∧ r.getField = .ok f ∧
    r.getRawPrefixUntilBoundary = .ok l.getPrefix

/-- The extractor gives back the hint and the field from what stands after the
key in the data of a locality hash. -/
def HintDecodes (k h f : Bytes) : Prop :=
  ∃ l e, LocalityFieldLocator.ofField k h f = .ok l ∧
    EscapedPrefixExtractor.parse (l.toView.drop l.keyPrefixSize) = .ok e ∧
    e.getOriginalPrefix = .ok h ∧ e.getRawSuffix = .ok f

theorem parseKeyType_toChar {t : KeyType} (ht : t.bearsFields = true) :
    parseKeyType t.toChar = t := by
  cases t <;> first | rfl | cases ht

theorem ofSlice_field {t : KeyType} (ht : t.bearsFields = true) (rest : Bytes)
    {e : EscapedPrefixExtractor} (he : EscapedPrefixExtractor.parse rest = .ok e)
    (hok : e.parsingOk = true) (hb : e.boundary ≠ 0) :
    ReverseLocator.ofSlice (t.toChar :: rest) =
      .ok { slice := t.toChar :: rest, keyType := t, firstChunk := e } := by
  have hn : ¬ (t = .kParseError ∨ t = .kString) := by
    rintro (rfl | rfl) <;> cases ht
  simp [ReverseLocator.ofSlice, charAt, parseKeyType_toChar ht, hn, he, hok,
    EscapedPrefixExtractor.getBoundary, hb, bind, Except.bind, pure, Except.pure]

/-- Whatever the reverse locator of a field key returns rests on its first chunk. -/
theorem ofSlice_field_inv {t : KeyType} (ht : t.bearsFields = true) {rest : Bytes}
    {r : ReverseLocator} (hr : ReverseLocator.ofSlice (t.toChar :: rest) = .ok r) :
    EscapedPrefixExtractor.parse rest = .ok r.firstChunk := by
  have hn : ¬ (t = .kParseError ∨ t = .kString) := by
    rintro (rfl | rfl) <;> cases ht
  cases he : EscapedPrefixExtractor.parse rest with
  | error err =>
    simp [ReverseLocator.ofSlice, charAt, parseKeyType_toChar ht, hn, he, bind, Except.bind] at hr
  | ok e =>
    cases hok : e.parsingOk <;> by_cases hb : e.boundary = 0 <;>
    · simp [ReverseLocator.ofSlice, charAt, parseKeyType_toChar ht, hn, he, hok, hb,
        EscapedPrefixExtractor.getBoundary, bind, Except.bind, pure, Except.pure] at hr
      rw [← hr]

theorem fieldKeyDecodes_iff {t : KeyType} (ht : t.bearsFields = true) {k : Bytes} (hk : k ≠ [])
    (f : Bytes) :
    FieldKeyDecodes t k f ↔ ¬ EndIsLost k f ∧ ¬ FieldLocator.Frees t k f := by
  have hn : t ≠ .kParseError ∧ t ≠ .kString := by
    constructor <;> rintro rfl <;> cases ht
  have hv : appendEscapedString [t.toChar] k ++ f =
      t.toChar :: (escapeHashes k ++ (hash :: hash :: f)) := by
    simp [appendEscapedString]
  constructor
  · rintro ⟨l, r, hl, hr, hty, hkey, -, -⟩
    obtain ⟨hfrees, -, hview⟩ := FieldLocator.ofField_ok ht hl
    refine ⟨fun hlost => ?_, hfrees⟩
    rw [FieldLocator.toView, hview, hv] at hr
    apply EscapedPrefixExtractor.parse_lost hlost (ofSlice_field_inv ht hr)
    rw [ReverseLocator.getKeyType] at hty
    simpa [ReverseLocator.getOriginalKey, hty, hn, bind, Except.bind] using hkey
  · rintro ⟨hlost, hfrees⟩
    obtain ⟨e, he, hread⟩ := EscapedPrefixExtractor.parse_reads hk hlost
    obtain ⟨block, hl⟩ := FieldLocator.ofField_eq ht hfrees
    have hb : e.boundary ≠ 0 := by rw [hread.boundary]; omega
    refine ⟨_, ⟨t.toChar :: (escapeHashes k ++ (hash :: hash :: f)), t, e⟩, hl, ?_, rfl, ?_, ?_, ?_⟩
    · rw [FieldLocator.toView, hv]
      exact ofSlice_field ht _ he hread.parsed hb
    · simpa [ReverseLocator.getOriginalKey, hn, bind, Except.bind] using hread.original
    · simpa [ReverseLocator.getField, hn, bind, Except.bind] using hread.suffix
    · simp [ReverseLocator.getRawPrefixUntilBoundary, EscapedPrefixExtractor.getBoundary, hn,
        hread.parsed, hread.boundary, FieldLocator.getPrefix, appendEscapedString, bind,
        Except.bind, pure, Except.pure, List.take_append]

theorem hintDecodes_iff {k h : Bytes} (hk : k ≠ []) (hh : h ≠ []) (f : Bytes) :
    HintDecodes k h f ↔ ¬ EndIsLost h f ∧ ¬ LocalityFieldLocator.Frees k h f := by
  have hv : (appendEscapedString (localityPrefix .kData k) h ++ f).drop
      (localityPrefix .kData k).length = escapeHashes h ++ (hash :: hash :: f) := by
    simp [appendEscapedString]
  constructor
  · rintro ⟨l, e, hl, he, hkey, -⟩
    obtain ⟨hfrees, hsize, hview⟩ := LocalityFieldLocator.ofField_ok hk hh hl
    refine ⟨fun hlost => ?_, hfrees⟩
    rw [LocalityFieldLocator.toView, hsize, hview, hv] at he
    exact EscapedPrefixExtractor.parse_lost hlost he hkey
  · rintro ⟨hlost, hfrees⟩
    obtain ⟨e, he, hread⟩ := EscapedPrefixExtractor.parse_reads hh hlost
    obtain ⟨block, hl⟩ := LocalityFieldLocator.ofField_eq hk hh hfrees
    refine ⟨_, e, hl, ?_, hread.original, hread.suffix⟩
    rw [LocalityFieldLocator.toView, hv]
    exact he

/-- A field key decodes to what it was made from exactly when the end of its key
is not lost, and the data of a locality hash exactly when the end of its hint is
not lost, provided that the field is not empty behind a prefix that fills a block. -/
theorem decoding_undoes_encoding_unless_the_end_is_lost
    {t : KeyType} (ht : t.bearsFields = true) {k h : Bytes} (hk : k ≠ []) (hh : h ≠ [])
    (f : Bytes) :
    (FieldKeyDecodes t k f ↔ ¬ EndIsLost k f ∧ ¬ FieldLocator.Frees t k f) ∧
    (HintDecodes k h f ↔ ¬ EndIsLost h f ∧ ¬ LocalityFieldLocator.Frees k h f) :=
  ⟨fieldKeyDecodes_iff ht hk f, hintDecodes_iff hk hh f⟩

/-- A key and a hint with '#' and '|' inside, before a field that starts with '#'. -/
theorem decoding_undoes_encoding_of_inner_hashes :
    FieldKeyDecodes .kSet (ascii "a|#b#") (ascii "##f") ∧
    HintDecodes (ascii "k|") (ascii "|h#") (ascii "#") := by
  have h := decoding_undoes_encoding_unless_the_end_is_lost (t := .kSet) (by decide)
    (k := ascii "a|#b#") (h := ascii "|h#") (by decide) (by decide) (ascii "##f")
  have h' := decoding_undoes_encoding_unless_the_end_is_lost (t := .kSet) (by decide)
    (k := ascii "k|") (h := ascii "|h#") (by decide) (by decide) (ascii "#")
  exact ⟨h.1.mpr ⟨fun hl => absurd hl.1 (by decide), by decide⟩,
    h'.2.mpr ⟨fun hl => absurd hl.1 (by decide), by decide⟩⟩

/-- Field "#x" of the hash "a|" decodes to field "x" of the hash "a#". And there is nothing to
decode for the empty field of a hash with a name of 510 bytes. -/
theorem a_hash_that_ends_in_a_bar_decodes_as_another :
    ascii "a|" ≠ [] ∧ ¬ FieldKeyDecodes .kHash (ascii "a|") (ascii "#x") ∧
    (FieldLocator.ofField .kHash (ascii "a|") (ascii "#x")).map FieldLocator.toView =
      .ok (ascii "ba|###x") ∧
    (ReverseLocator.ofSlice (ascii "ba|###x") >>= ReverseLocator.getOriginalKey) =
      .ok (ascii "a#") ∧
    ¬ FieldKeyDecodes .kHash (List.replicate 510 97) [] := by
  refine ⟨by decide, ?_, by decide, by decide +kernel, ?_⟩
  · rw [fieldKeyDecodes_iff (by decide) (by decide)]
    exact fun h => h.1 ⟨by decide, .inr (by decide)⟩
  · rw [fieldKeyDecodes_iff rfl (by decide)]
    refine fun h => h.2 ⟨?_, rfl⟩
    rw [length_appendEscapedString, List.length_replicate, List.length_singleton]
    omega

end quarkdb
