-- Prefix extraction over all byte strings: which of them are read to a boundary or rejected,
-- and which make the loop look outside of the string or fail its assertion. A client can
-- give such a string as the cursor of LHSCAN.
import QuarkDB.LocalityScans

namespace quarkdb

open Database

/-! ## Stray hashes -/

/-- Reading ends badly at a '#', with the name `n` before it and `after` behind it: it is the
first byte or the last, or there is neither a '|' before nor a '#' behind it, or it stands
between a '|' and the one '#' that ends the string. -/
def EndsBadly (n after : Bytes) : Prop :=
  n = [] ∨ after = [] ∨ (n.getLast? ≠ some bar ∧ after.head? ≠ some hash) ∨
    (n.getLast? = some bar ∧ after = [hash])

/-- An escaped name, and after it a '#' at which reading ends badly. -/
def Strays (s : Bytes) : Prop :=
  ∃ n after, s = escapeHashes n ++ hash :: after ∧ n.getLast? ≠ some hash ∧ EndsBadly n after

/-- There is a "|#" with no "##" before it. -/
def TakesHeavyPath (s : Bytes) : Prop :=
  ∃ before after, s = before ++ bar :: hash :: after ∧ ¬ [hash, hash] <:+: before

/-- The '#' behind the name `n` is the second byte of an escape. -/
def Escapes (n after : Bytes) : Prop :=
  n.getLast? = some bar ∧ after ≠ [] ∧ after.head? ≠ some hash

/-- A string is an escaped name as a whole, or up to its first '#' that is no escape. -/
def NameOrStray (s : Bytes) : Prop :=
  (∃ n, s = escapeHashes n ∧ n.getLast? ≠ some hash) ∨
    ∃ n after, s = escapeHashes n ++ hash :: after ∧ n.getLast? ≠ some hash ∧ ¬ Escapes n after

/-- The last byte of a name does not change with what is put before the name. -/
theorem getLast?_cons_of_ne_nil (c : UInt8) {n : Bytes} (hn : n ≠ []) :
    (c :: n).getLast? = n.getLast? := by
  obtain ⟨d, rest, rfl⟩ := List.exists_cons_of_ne_nil hn
  rw [List.getLast?_cons_cons]

theorem getLast?_cons_ne_hash {c : UInt8} (hc : c ≠ hash) {n : Bytes}
    (hn : n.getLast? ≠ some hash) : (c :: n).getLast? ≠ some hash := by
  by_cases he : n = []
  · subst he
    simpa using hc
  · rwa [getLast?_cons_of_ne_nil c he]

theorem NameOrStray.cons {c : UInt8} {rest : Bytes} (h : NameOrStray rest) (hc : c ≠ hash)
    (hb : c = bar → rest.head? ≠ some hash) : NameOrStray (c :: rest) := by
  rcases h with ⟨n, rfl, hn⟩ | ⟨n, after, rfl, hn, hs⟩
  · exact .inl ⟨c :: n, (escapeHashes_of_ne hc n).symm, getLast?_cons_ne_hash hc hn⟩
  · refine .inr ⟨c :: n, after, ?_, getLast?_cons_ne_hash hc hn, ?_⟩
    · rw [escapeHashes_of_ne hc, List.cons_append]
    · rintro ⟨hlast, hafter⟩
      by_cases he : n = []
      · subst he
        exact hb (by simpa using hlast) rfl
      · rw [getLast?_cons_of_ne_nil c he] at hlast
        exact hs ⟨hlast, hafter⟩

/-- The two bytes of an escape before a string that goes on with another byte than '#'. -/
theorem NameOrStray.escape {d : UInt8} {rest : Bytes} (h : NameOrStray (d :: rest))
    (hd : d ≠ hash) : NameOrStray (bar :: hash :: d :: rest) := by
  rcases h with ⟨n, he, hn⟩ | ⟨n, after, he, hn, hs⟩
  · have hne : n ≠ [] := by
      rintro rfl
      cases he
    refine .inl ⟨hash :: n, ?_, ?_⟩
    · rw [escapeHashes_hash, ← he]
    · rwa [getLast?_cons_of_ne_nil hash hne]
  · have hne : n ≠ [] := by
      rintro rfl
      exact hd (List.cons.inj he).1
    refine .inr ⟨hash :: n, after, ?_, ?_, ?_⟩
    · rw [escapeHashes_hash, List.cons_append, List.cons_append, ← he]
    · rwa [getLast?_cons_of_ne_nil hash hne]
    · rintro ⟨hlast, hafter⟩
      rw [getLast?_cons_of_ne_nil hash hne] at hlast
      exact hs ⟨hlast, hafter⟩

theorem nameOrStray (s : Bytes) : NameOrStray s := by
  induction hl : s.length using Nat.strong_induction_on generalizing s with
  | _ length ih =>
    subst hl
    rcases s with _ | ⟨c, rest⟩
    · exact .inl ⟨[], rfl, nofun⟩
    by_cases hc : c = hash
    · subst hc
      exact .inr ⟨[], rest, rfl, nofun, fun h => nomatch h.1⟩
    have hrest := ih rest.length (by simp) rest rfl
    by_cases hb : c = bar ∧ rest.head? = some hash
    · obtain ⟨rfl, hhead⟩ := hb
      rcases rest with _ | ⟨d, _ | ⟨e, tail⟩⟩
      · cases hhead
      · obtain rfl : d = hash := by simpa using hhead
        exact .inr ⟨[bar], [], rfl, by simp [bar_ne_hash], fun h => h.2.1 rfl⟩
      · obtain rfl : d = hash := by simpa using hhead
        by_cases he : e = hash
        · subst he
          refine .inr ⟨[bar], hash :: tail, ?_, by simp [bar_ne_hash], fun h => h.2.2 rfl⟩
          rw [escapeHashes_of_ne bar_ne_hash]
          rfl
        · exact (ih (e :: tail).length (by simp) _ rfl).escape he
    · rw [not_and] at hb
      exact hrest.cons hc hb

/-! ## What `extractPrefix` does at a stray hash -/

/-- The loop has read the name `n`, and what stands at index `i` is what follows it. -/
theorem extractPrefix_after_name {n : Bytes} (hn : n.getLast? ≠ some hash) {p : UInt8}
    (hp : n.getLast? = some p) (rest : Bytes) :
    extractPrefix (escapeHashes n ++ rest) =
      extractPrefixLoop (escapeHashes n).length (some p) n rest := by
  obtain ⟨stem, rfl⟩ : ∃ stem, n = stem ++ [p] := List.getLast?_eq_some_iff.mp hp
  have hne : p ≠ hash := fun he => hn (by rw [hp, he])
  obtain ⟨prev, hstem⟩ := extractPrefixLoop_stem stem hne rest 0 none []
  rw [extractPrefix, escapeHashes_append, escapeHashes_of_ne hne, escapeHashes_nil,
    List.append_assoc, List.singleton_append, hstem, extractPrefixLoop_of_ne hne]
  simp

/-- A name without a stray hash has no boundary. -/
theorem extractPrefix_name {n : Bytes} (hn : n.getLast? ≠ some hash) :
    extractPrefix (escapeHashes n) = .ok (0, n) := by
  cases hl : n.getLast? with
  | none =>
    rw [List.getLast?_eq_none_iff] at hl
    subst hl
    rfl
  | some p =>
    have h := extractPrefix_after_name hn hl []
    rwa [List.append_nil] at h

theorem extractPrefix_endsBadly {n after : Bytes} (hn : n.getLast? ≠ some hash)
    (h : EndsBadly n after) :
    ∃ fault, extractPrefix (escapeHashes n ++ hash :: after) = .error fault := by
  by_cases he : n = []
  · subst he
    cases after with
    | nil => exact ⟨_, rfl⟩
    | cons c rest => exact ⟨_, rfl⟩
  obtain ⟨p, hp⟩ := Option.ne_none_iff_exists'.mp (mt List.getLast?_eq_none_iff.mp he)
  rw [extractPrefix_after_name hn hp]
  rw [EndsBadly, hp] at h
  rcases h with h | rfl | ⟨hb, hh⟩ | ⟨hb, rfl⟩
  · exact absurd h he
  · exact ⟨_, rfl⟩
  · have hb' : p ≠ bar := fun e => hb (by rw [e])
    cases after with
    | nil => exact ⟨_, rfl⟩
    | cons c rest =>
      have hc : c ≠ hash := by simpa using hh
      rw [extractPrefixLoop]
      exact ⟨.assertion "dkey[i-1] == '|'", by simp [hc, hb', bind, Except.bind]⟩
  · -- The first '#' is taken for the end of an escape, and the last one has nothing behind it.
    obtain rfl : p = bar := Option.some.inj hb
    obtain ⟨stem, rfl⟩ : ∃ stem, n = stem ++ [bar] := List.getLast?_eq_some_iff.mp hp
    rw [extractPrefixLoop]
    exact ⟨.outOfBounds, by simp [extractPrefixLoop, bind, Except.bind]⟩

theorem extractPrefix_endsWell {n after : Bytes} (hn : n.getLast? ≠ some hash)
    (hs : ¬ Escapes n after) (h : ¬ EndsBadly n after) :
    ∃ boundary key, extractPrefix (escapeHashes n ++ hash :: after) = .ok (boundary, key) ∧
      2 ≤ boundary ∧ boundary ≤ (escapeHashes n ++ hash :: after).length ∧ key ≠ [] := by
  unfold EndsBadly at h
  rw [not_or, not_or, not_or] at h
  obtain ⟨he, hne, hfirst, hlast⟩ := h
  obtain ⟨p, hp⟩ := Option.ne_none_iff_exists'.mp (mt List.getLast?_eq_none_iff.mp he)
  obtain ⟨c, rest, rfl⟩ := List.exists_cons_of_ne_nil hne
  rw [extractPrefix_after_name hn hp, extractPrefixLoop]
  rw [Escapes, hp] at hs
  rw [hp] at hfirst hlast
  by_cases hb : p = bar
  · subst hb
    obtain rfl : c = hash := by
      by_contra hc
      exact hs ⟨rfl, by simp, by simpa using hc⟩
    obtain ⟨d, tail, rfl⟩ : ∃ d tail, rest = d :: tail :=
      List.exists_cons_of_ne_nil fun hr => hlast ⟨rfl, by rw [hr]⟩
    obtain ⟨stem, rfl⟩ : ∃ stem, n = stem ++ [bar] := List.getLast?_eq_some_iff.mp hp
    by_cases hd : d = hash
    · subst hd
      refine ⟨(escapeHashes (stem ++ [bar])).length + 3, stem ++ [hash], ?_, by omega, ?_, by simp⟩
      · simp [bind, Except.bind, pure, Except.pure]
      · simp only [List.length_append, List.length_cons]
        omega
    · refine ⟨(escapeHashes (stem ++ [bar])).length + 2, stem ++ [bar], ?_, by omega, ?_, by simp⟩
      · simp [hd, pure, Except.pure]
      · simp only [List.length_append, List.length_cons]
        omega
  · obtain rfl : c = hash := by
      by_contra hc
      exact hfirst ⟨by simpa using hb, by simpa using hc⟩
    refine ⟨(escapeHashes n).length + 2, n, ?_, by omega, ?_, he⟩
    · simp [hb, pure, Except.pure]
    · simp only [List.length_append, List.length_cons]
      omega

/-- `extractPrefix` returns for a string without a stray hash: 0, or a boundary and a key that
is not empty. -/
theorem extractPrefix_of_not_strays {s : Bytes} (h : ¬ Strays s) :
    ∃ boundary key, extractPrefix s = .ok (boundary, key) ∧
      (boundary ≠ 0 → 2 ≤ boundary ∧ boundary ≤ s.length ∧ key ≠ []) := by
  rcases nameOrStray s with ⟨n, rfl, hn⟩ | ⟨n, after, rfl, hn, hs⟩
  · exact ⟨0, n, extractPrefix_name hn, fun h0 => absurd rfl h0⟩
  · have hb : ¬ EndsBadly n after := fun hb => h ⟨n, after, rfl, hn, hb⟩
    obtain ⟨boundary, key, hx, hbounds⟩ := extractPrefix_endsWell hn hs hb
    exact ⟨boundary, key, hx, fun _ => hbounds⟩

theorem extractPrefix_of_strays {s : Bytes} (h : Strays s) :
    ∃ fault, extractPrefix s = .error fault := by
  obtain ⟨n, after, rfl, hn, hb⟩ := h
  exact extractPrefix_endsBadly hn hb

/-! ## What `parse` does -/

theorem not_takesHeavyPath_singleton (c : UInt8) : ¬ TakesHeavyPath [c] := by
  rintro ⟨before, after, he, -⟩
  have hl := congrArg List.length he
  simp only [List.length_append, List.length_cons, List.length_nil] at hl
  omega

theorem takesHeavyPath_bar (rest : Bytes) : TakesHeavyPath (bar :: hash :: rest) :=
  ⟨[], rest, rfl, by simp⟩

theorem not_takesHeavyPath_hashes (rest : Bytes) : ¬ TakesHeavyPath (hash :: hash :: rest) := by
  rintro ⟨before, after, he, hn⟩
  rcases before with _ | ⟨c, _ | ⟨d, before⟩⟩
  · exact bar_ne_hash (List.cons.inj he).1.symm
  · exact bar_ne_hash (List.cons.inj (List.cons.inj he).2).1.symm
  · obtain ⟨hc, he'⟩ := List.cons.inj he
    have hd := (List.cons.inj he').1
    exact hn ⟨[], before, by rw [← hc, ← hd]; rfl⟩

/-- Where neither "|#" nor "##" ends, the search goes on. -/
theorem takesHeavyPath_cons {prev c : UInt8} {rest : Bytes} (h1 : ¬ (c = hash ∧ prev = bar))
    (h2 : ¬ (c = hash ∧ prev = hash)) :
    TakesHeavyPath (prev :: c :: rest) ↔ TakesHeavyPath (c :: rest) := by
  constructor
  · rintro ⟨before, after, he, hn⟩
    rcases before with _ | ⟨d, before⟩
    · obtain ⟨hprev, he'⟩ := List.cons.inj he
      exact absurd ⟨(List.cons.inj he').1, hprev⟩ h1
    · exact ⟨before, after, (List.cons.inj he).2, fun hi => hn (hi.trans ⟨[d], [], by simp⟩)⟩
  · rintro ⟨before, after, he, hn⟩
    refine ⟨prev :: before, after, by rw [he, List.cons_append], fun hi => ?_⟩
    rcases List.infix_cons_iff.mp hi with hp | hi
    · obtain ⟨hprev, hbefore⟩ := List.cons_prefix_cons.mp hp
      obtain ⟨tail, rfl⟩ := hbefore
      exact h2 ⟨(List.cons.inj he).1, hprev.symm⟩
    · exact hn hi

namespace EscapedPrefixExtractor

theorem parseLoop_heavy (slice : Bytes) (i : Nat) {prev : UInt8} {rest : Bytes}
    (h : TakesHeavyPath (prev :: rest)) : parseLoop slice i prev rest = parseHeavy slice := by
  induction rest generalizing i prev with
  | nil => exact absurd h (not_takesHeavyPath_singleton prev)
  | cons c rest ih =>
    by_cases h1 : c = hash ∧ prev = bar
    · rw [parseLoop, if_pos h1]
      rfl
    by_cases h2 : c = hash ∧ prev = hash
    · obtain ⟨rfl, rfl⟩ := h2
      exact absurd h (not_takesHeavyPath_hashes rest)
    · rw [parseLoop, if_neg h1, if_neg h2]
      exact ih (i + 1) ((takesHeavyPath_cons h1 h2).mp h)

/-- The other path ends without a boundary, or at the first "##". -/
theorem parseLoop_light (slice : Bytes) (i : Nat) {prev : UInt8} {rest : Bytes}
    (h : ¬ TakesHeavyPath (prev :: rest)) :
    parseLoop slice i prev rest =
        .ok { parsingOk := false, slice, unescaped := [], boundary := 0 } ∨
      ∃ k, i ≤ k ∧ k < i + rest.length ∧
        (k = i → prev = hash ∧ rest.head? = some hash) ∧
        parseLoop slice i prev rest =
          .ok { parsingOk := true, slice, unescaped := [], boundary := k + 1 } := by
  induction rest generalizing i prev with
  | nil => exact .inl rfl
  | cons c rest ih =>
    by_cases h1 : c = hash ∧ prev = bar
    · obtain ⟨rfl, rfl⟩ := h1
      exact absurd (takesHeavyPath_bar rest) h
    by_cases h2 : c = hash ∧ prev = hash
    · refine .inr ⟨i, le_rfl, by simp, fun _ => ⟨h2.2, by rw [h2.1]; rfl⟩, ?_⟩
      rw [parseLoop, if_neg h1, if_pos h2]
    · rw [parseLoop, if_neg h1, if_neg h2]
      rw [takesHeavyPath_cons h1 h2] at h
      rcases ih (i + 1) h with he | ⟨k, hk, hlt, -, he⟩
      · exact .inl he
      · refine .inr ⟨k, by omega, ?_, fun hki => absurd hk (by omega), he⟩
        rw [List.length_cons]
        omega

/-- A chunk that was read: its boundary is in the string, and its name is empty only before a
"##" at the start. -/
structure Bounded (e : EscapedPrefixExtractor) (s : Bytes) : Prop where
  two_le : 2 ≤ e.boundary
  le_length : e.boundary ≤ s.length
  nonempty : ¬ [hash, hash] <+: s → ∃ name, name ≠ [] ∧ e.getOriginalPrefix = .ok name

theorem parse_of_heavy {s : Bytes} (h : TakesHeavyPath s) : parse s = parseHeavy s := by
  rcases s with _ | ⟨c, rest⟩
  · obtain ⟨before, after, he, -⟩ := h
    exact absurd he.symm (by simp)
  · exact parseLoop_heavy (c :: rest) 1 h

/-- Unless the heavyweight path meets a stray hash, a string is rejected or read. -/
theorem parse_of_not_strays {s : Bytes} (h : ¬ (TakesHeavyPath s ∧ Strays s)) :
    ∃ e, parse s = .ok e ∧ (e.parsingOk = true → e.Bounded s) := by
  by_cases hh : TakesHeavyPath s
  · obtain ⟨boundary, key, hx, hb⟩ := extractPrefix_of_not_strays fun hs => h ⟨hh, hs⟩
    rw [parse_of_heavy hh, parseHeavy, hx]
    refine ⟨_, rfl, fun hok => ?_⟩
    obtain ⟨h1, h2, h3⟩ := hb (by simpa using hok)
    refine ⟨h1, h2, fun _ => ⟨key, h3, ?_⟩⟩
    unfold getOriginalPrefix
    rw [hok]
    simp [h3, bind, Except.bind, pure, Except.pure]
  · rcases s with _ | ⟨c, rest⟩
    · refine ⟨_, rfl, fun hok => ?_⟩
      cases hok
    rcases parseLoop_light (c :: rest) 1 hh with he | ⟨k, hk, hlt, hfirst, he⟩
    · refine ⟨_, he, fun hok => ?_⟩
      cases hok
    refine ⟨_, he, fun _ => ⟨?_, ?_, fun hn => ?_⟩⟩
    · show 2 ≤ k + 1
      omega
    · show k + 1 ≤ (c :: rest).length
      rw [List.length_cons]
      omega
    · have hk1 : k ≠ 1 := by
        intro hk1
        obtain ⟨rfl, hhead⟩ := hfirst hk1
        obtain ⟨tail, rfl⟩ := List.head?_eq_some_iff.mp hhead
        exact hn ⟨tail, rfl⟩
      refine ⟨(c :: rest).take (k - 1), ?_, rfl⟩
      rw [ne_eq, List.take_eq_nil_iff]
      simp only [reduceCtorEq, or_false]
      omega

theorem parse_of_strays {s : Bytes} (hh : TakesHeavyPath s) (hs : Strays s) :
    ∃ fault, parse s = .error fault := by
  obtain ⟨fault, hx⟩ := extractPrefix_of_strays hs
  rw [parse_of_heavy hh, parseHeavy, hx]
  exact ⟨fault, rfl⟩

/-- A "##" at the start is the end of the empty name. -/
theorem parse_hashes (rest : Bytes) :
    parse (hash :: hash :: rest) =
      .ok { parsingOk := true, slice := hash :: hash :: rest, unescaped := [], boundary := 2 } := by
  simp [parse, parseLoop, bar_ne_hash.symm]

end EscapedPrefixExtractor

/-! ## The cursor of LHSCAN -/

section

variable {stringmatchlen : Bytes → Bytes → Bool} {db : Database} {key cursor matchloc : Bytes}
  {count : Nat}

/-- The cursor is rejected, or the scan starts from the hint and the field in it. -/
def HandlesCursor (stringmatchlen : Bytes → Bytes → Bool) (db : Database)
    (key cursor matchloc : Bytes) (count : Nat) : Prop :=
  lhscan stringmatchlen db key cursor matchloc count = .ok (malformed "invalid cursor", [], []) ∨
    ∃ e hint field locator requiredPrefix, EscapedPrefixExtractor.parse cursor = .ok e ∧
      e.getOriginalPrefix = .ok hint ∧ e.getRawSuffix = .ok field ∧
      LocalityFieldLocator.ofField key hint field = .ok locator ∧
      lhscan stringmatchlen db key cursor matchloc count =
        lhscanFrom stringmatchlen db matchloc count (localityPrefix .kData key).length
          requiredPrefix locator.toView

theorem lhscan_of_fault (ht : db.assertKeyType key .kLocalityHash = .ok true) (hk : key ≠ [])
    (hc : cursor ≠ []) {fault : Fault}
    (h : EscapedPrefixExtractor.parse cursor = .error fault) :
    lhscan stringmatchlen db key cursor matchloc count = .error fault := by
  unfold lhscan
  rw [ht, LocalityFieldLocator.resetKey_eq hk]
  simp [hc, h, bind, Except.bind]

theorem lhscan_of_rejected (ht : db.assertKeyType key .kLocalityHash = .ok true) (hk : key ≠ [])
    (hc : cursor ≠ []) {e : EscapedPrefixExtractor}
    (h : EscapedPrefixExtractor.parse cursor = .ok e) (hok : e.parsingOk = false) :
    lhscan stringmatchlen db key cursor matchloc count =
      .ok (malformed "invalid cursor", [], []) := by
  unfold lhscan
  rw [ht, LocalityFieldLocator.resetKey_eq hk]
  simp [hc, h, hok, bind, Except.bind, pure, Except.pure]

/-- The locator asserts that the hint is not empty. -/
theorem lhscan_of_empty_hint (ht : db.assertKeyType key .kLocalityHash = .ok true) (hk : key ≠ [])
    (hc : cursor ≠ []) {e : EscapedPrefixExtractor}
    (h : EscapedPrefixExtractor.parse cursor = .ok e) (hok : e.parsingOk = true)
    (ho : e.getOriginalPrefix = .ok []) :
    lhscan stringmatchlen db key cursor matchloc count =
      .error (.assertion "!hint.empty()") := by
  unfold lhscan
  rw [ht, LocalityFieldLocator.resetKey_eq hk]
  simp [hc, h, hok, ho, LocalityFieldLocator.resetHint, bind, Except.bind]

/-- The locator of what the cursor reads as frees its block. -/
theorem lhscan_of_freed (ht : db.assertKeyType key .kLocalityHash = .ok true) (hk : key ≠ [])
    (hc : cursor ≠ []) {e : EscapedPrefixExtractor}
    (h : EscapedPrefixExtractor.parse cursor = .ok e) (hok : e.parsingOk = true)
    {hint field : Bytes} (ho : e.getOriginalPrefix = .ok hint) (hf : e.getRawSuffix = .ok field)
    (hh : hint ≠ []) (hfrees : LocalityFieldLocator.Frees key hint field) :
    lhscan stringmatchlen db key cursor matchloc count = .error .outOfBounds := by
  unfold lhscan
  rw [ht, LocalityFieldLocator.resetKey_eq hk]
  simp only [hc, h, hok, ho, hf, LocalityFieldLocator.resetHint_eq key hh,
    LocalityFieldLocator.resetField_eq hk hh, LocalityFieldLocator.ofField_frees hk hh hfrees,
    Except.bind, bind, Bool.not_true, Bool.false_eq_true, if_false, ne_eq, not_false_eq_true,
    if_true]

theorem lhscan_of_decoded (ht : db.assertKeyType key .kLocalityHash = .ok true) (hk : key ≠ [])
    (hc : cursor ≠ []) {e : EscapedPrefixExtractor}
    (h : EscapedPrefixExtractor.parse cursor = .ok e) (hok : e.parsingOk = true)
    {hint field : Bytes} (ho : e.getOriginalPrefix = .ok hint) (hf : e.getRawSuffix = .ok field)
    (hh : hint ≠ []) (hfrees : ¬ LocalityFieldLocator.Frees key hint field) :
    HandlesCursor stringmatchlen db key cursor matchloc count := by
  obtain ⟨block, hl⟩ := LocalityFieldLocator.ofField_eq hk hh hfrees
  refine .inr ⟨e, hint, field, _,
    if extractPatternPrefix matchloc ≠ [] then appendEscapedString (localityPrefix .kData key) hint
    else localityPrefix .kData key, h, ho, hf, hl, ?_⟩
  unfold lhscan
  rw [ht, LocalityFieldLocator.resetKey_eq hk]
  simp only [hc, h, hok, ho, hf, LocalityFieldLocator.resetHint_eq key hh,
    LocalityFieldLocator.resetField_eq hk hh, hl, LocalityFieldLocator.toView, Except.bind, bind,
    Bool.not_true, Bool.false_eq_true, if_false, ne_eq, not_false_eq_true, if_true]

/-- What the cursor reads as is no empty field behind a key and a hint of 512 bytes or more. -/
def ReadsAsField (key cursor : Bytes) : Prop :=
  ∀ e hint field, EscapedPrefixExtractor.parse cursor = .ok e → e.getOriginalPrefix = .ok hint →
    e.getRawSuffix = .ok field → ¬ LocalityFieldLocator.Frees key hint field

theorem getRawSuffix_ok {e : EscapedPrefixExtractor} {field : Bytes}
    (h : e.getRawSuffix = .ok field) : e.parsingOk = true := by
  unfold EscapedPrefixExtractor.getRawSuffix at h
  by_contra hok
  rw [Bool.not_eq_true] at hok
  rw [hok] at h
  cases h

theorem HandlesCursor.readsAsField (ht : db.assertKeyType key .kLocalityHash = .ok true)
    (hk : key ≠ []) (hc : cursor ≠ [])
    (h : HandlesCursor stringmatchlen db key cursor matchloc count) : ReadsAsField key cursor := by
  intro e hint field hp ho hf hfrees
  have hok := getRawSuffix_ok hf
  by_cases hh : hint = []
  · subst hh
    have hrun : lhscan stringmatchlen db key cursor matchloc count =
        .error (.assertion "!hint.empty()") := lhscan_of_empty_hint ht hk hc hp hok ho
    rcases h with hr | ⟨e', hint', field', locator, -, he', ho', -, hl, -⟩
    · rw [hrun] at hr
      cases hr
    · rw [hp] at he'
      cases he'
      rw [ho] at ho'
      cases ho'
      unfold LocalityFieldLocator.ofField LocalityFieldLocator.ofHint at hl
      rw [LocalityFieldLocator.resetKey_eq hk] at hl
      cases hl
  · rcases h with hr | ⟨e', hint', field', locator, -, he', ho', hf', hl, -⟩
    · rw [lhscan_of_freed ht hk hc hp hok ho hf hh hfrees] at hr
      cases hr
    · rw [hp] at he'
      cases he'
      rw [ho] at ho'
      rw [hf] at hf'
      cases ho'
      cases hf'
      exact (LocalityFieldLocator.ofField_ok hk hh hl).1 hfrees

theorem handlesCursor_iff (ht : db.assertKeyType key .kLocalityHash = .ok true) (hk : key ≠ [])
    (hc : cursor ≠ []) :
    HandlesCursor stringmatchlen db key cursor matchloc count ↔
      ¬ (TakesHeavyPath cursor ∧ Strays cursor) ∧ ¬ [hash, hash] <+: cursor ∧
        ReadsAsField key cursor := by
  constructor
  · intro h
    refine ⟨?_, ?_, h.readsAsField ht hk hc⟩
    · rintro ⟨hh, hs⟩
      obtain ⟨fault, hp⟩ := EscapedPrefixExtractor.parse_of_strays hh hs
      rcases h with hr | ⟨e, -, -, -, -, he, -⟩
      · rw [lhscan_of_fault ht hk hc hp] at hr
        cases hr
      · rw [hp] at he
        cases he
    · rintro ⟨rest, rfl⟩
      have hp := EscapedPrefixExtractor.parse_hashes rest
      rcases h with hr | ⟨e, hint, field, locator, -, he, ho, -, hl, -⟩
      · rw [lhscan_of_empty_hint ht hk hc hp rfl rfl] at hr
        cases hr
      · rw [List.cons_append, List.cons_append, List.nil_append, hp] at he
        cases he
        cases ho
        unfold LocalityFieldLocator.ofField LocalityFieldLocator.ofHint at hl
        rw [LocalityFieldLocator.resetKey_eq hk] at hl
        cases hl
  · rintro ⟨hs, hn, hfield⟩
    obtain ⟨e, hp, hb⟩ := EscapedPrefixExtractor.parse_of_not_strays hs
    by_cases hok : e.parsingOk = true
    · obtain ⟨hint, hne, ho⟩ := (hb hok).nonempty hn
      have hf : e.getRawSuffix = .ok (e.slice.drop e.boundary) := by
        unfold EscapedPrefixExtractor.getRawSuffix
        rw [hok]
        rfl
      exact lhscan_of_decoded ht hk hc hp hok ho hf hne (hfield e hint _ hp ho hf)
    · exact .inl (lhscan_of_rejected ht hk hc hp (by simpa using hok))

/-- A string is rejected, or read to a boundary inside of it, if and only if no '#' strays: there
is no "|#" before the first "##", or reading does not end badly at the first '#' that is no
escape. The loop of `extractPrefix` alone does so if and only if reading does not end badly
there. And LHSCAN rejects or decodes the cursor of a client if and only if no '#' strays in it,
it does not begin with "##", the end of an empty hint, and it does not read as an empty field
behind 512 bytes. -/
theorem prefix_extraction_is_total_unless_a_hash_strays (stringmatchlen : Bytes → Bytes → Bool)
    (db : Database) {key : Bytes} (hk : key ≠ [])
    (ht : db.assertKeyType key .kLocalityHash = .ok true) (s matchloc : Bytes) (count : Nat) :
    ((∃ e, EscapedPrefixExtractor.parse s = .ok e ∧
        (e.parsingOk = true → 2 ≤ e.boundary ∧ e.boundary ≤ s.length)) ↔
      ¬ (TakesHeavyPath s ∧ Strays s)) ∧
    ((∃ boundary key, extractPrefix s = .ok (boundary, key) ∧
        (boundary ≠ 0 → 2 ≤ boundary ∧ boundary ≤ s.length)) ↔ ¬ Strays s) ∧
    (s ≠ [] → (HandlesCursor stringmatchlen db key s matchloc count ↔
      ¬ (TakesHeavyPath s ∧ Strays s) ∧ ¬ [hash, hash] <+: s ∧ ReadsAsField key s)) := by
  refine ⟨⟨?_, fun h => ?_⟩, ⟨?_, fun h => ?_⟩, handlesCursor_iff ht hk⟩
  · rintro ⟨e, he, -⟩ ⟨hh, hs⟩
    obtain ⟨fault, hp⟩ := EscapedPrefixExtractor.parse_of_strays hh hs
    rw [hp] at he
    cases he
  · obtain ⟨e, he, hb⟩ := EscapedPrefixExtractor.parse_of_not_strays h
    exact ⟨e, he, fun hok => ⟨(hb hok).two_le, (hb hok).le_length⟩⟩
  · rintro ⟨boundary, key, hx, -⟩ hs
    obtain ⟨fault, hf⟩ := extractPrefix_of_strays hs
    rw [hf] at hx
    cases hx
  · obtain ⟨boundary, key, hx, hb⟩ := extractPrefix_of_not_strays h
    exact ⟨boundary, key, hx, fun h0 => ⟨(hb h0).1, (hb h0).2.1⟩⟩

end

/-- A cursor that a page of another hash may have given. -/
theorem a_cursor_after_a_bar_is_decoded :
    HandlesCursor starMatch threeHints (ascii "k") (ascii "my|##key") (ascii "a*") 1 ∧
      ¬ Strays (ascii "my|##key") := by
  have h := prefix_extraction_is_total_unless_a_hash_strays starMatch threeHints
    (show ascii "k" ≠ [] by decide) (by decide +kernel) (ascii "my|##key") (ascii "a*") 1
  have hparse : EscapedPrefixExtractor.parse (ascii "my|##key") =
      .ok { parsingOk := true, slice := ascii "my|##key", unescaped := ascii "my|", boundary := 5 } :=
    by decide +kernel
  have hextract : extractPrefix (ascii "my|##key") = .ok (5, ascii "my|") := by decide +kernel
  refine ⟨(h.2.2 (by decide)).mpr ⟨h.1.mp ⟨_, hparse, fun _ => by decide⟩, by decide, ?_⟩,
    h.2.1.mp ⟨_, _, hextract, fun _ => by decide⟩⟩
  intro e hint field hp _ hf hfrees
  rw [hparse] at hp
  cases hp
  rw [hfrees.2] at hf
  exact absurd hf (by decide)

/-- Three cursors that make LHSCAN look behind the end, before the start, or fail the assertion
of `extractPrefix`, one that fails the assertion of the locator, and one whose locator is freed. -/
theorem some_cursors_are_neither_decoded_nor_rejected :
    EscapedPrefixExtractor.parse (ascii "a|#") = .error .outOfBounds ∧
    EscapedPrefixExtractor.parse (ascii "#a|##b") = .error .outOfBounds ∧
    EscapedPrefixExtractor.parse (ascii "a#b|##c") =
      .error (.assertion "dkey[i-1] == '|'") ∧
    lhscan starMatch threeHints (ascii "k") (ascii "a|#") [] 1 = .error .outOfBounds ∧
    lhscan starMatch threeHints (ascii "k") (ascii "##f") [] 1 =
      .error (.assertion "!hint.empty()") ∧
    lhscan starMatch threeHints (ascii "k") (List.replicate 510 97 ++ ascii "##") [] 1 =
      .error .outOfBounds ∧
    ¬ ∃ e, EscapedPrefixExtractor.parse (ascii "a|#") = .ok e ∧
      (e.parsingOk = true → 2 ≤ e.boundary ∧ e.boundary ≤ (ascii "a|#").length) := by
  have hend : EscapedPrefixExtractor.parse (ascii "a|#") = .error .outOfBounds := by
    decide +kernel
  refine ⟨hend, by decide +kernel, by decide +kernel, by decide +kernel, by decide +kernel,
    by decide +kernel, ?_⟩
  rintro ⟨e, he, -⟩
  rw [hend] at he
  cases he

end quarkdb
