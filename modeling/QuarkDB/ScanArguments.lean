-- What the parser of scan options lets through: the cursors and options that can be used,
-- and the spellings of a count below 1 that are neither "0" nor begin with '-'.
import QuarkDB.ScanCommands

namespace quarkdb

/-! ## Spellings of a count -/

/-- A number below 1 that is neither written "0" nor begins with '-': nothing at all, zeros
after blanks or a '+', or a negative number after blanks. -/
def SpellsNonPositive (value : Bytes) : Prop :=
  value = [] ∨ ∃ blanks sign digits, value = blanks ++ (sign ++ digits) ∧
    blanks.all isSpace = true ∧ digits ≠ [] ∧ digits.all isDigit = true ∧
    (((sign = [] ∨ sign = ascii "+") ∧ digitsValue digits = 0 ∧ value ≠ ascii "0") ∨
      (sign = ascii "-" ∧ blanks ≠ [] ∧ digitsValue digits < 2 ^ 63))

/-- The value of a COUNT passes all checks. -/
def ReadsAsCount (value : Bytes) : Prop :=
  ¬ ascii "-" <+: value ∧ value ≠ ascii "0" ∧ (parseInt64 value).isSome

/-- The sign of a number without blanks before it, and what follows. -/
def signAndDigits (body : Bytes) : Bool × Bytes :=
  match body with
  | 45 :: rest => (true, rest)
  | 43 :: rest => (false, rest)
  | _ => (false, body)

theorem parseInt64_eq (value : Bytes) :
    parseInt64 value =
      let (negative, digits) := signAndDigits (value.dropWhile isSpace)
      if value = [] then some 0
      else if digits = [] ∨ ¬ digits.all isDigit then none
      else
        let n : Int := if negative then -digitsValue digits else digitsValue digits
        if n ≤ -2 ^ 63 ∨ 2 ^ 63 - 1 ≤ n then none else some n := rfl

theorem signAndDigits_digits {digits : Bytes} (hd : digits.all isDigit = true) :
    signAndDigits digits = (false, digits) := by
  cases digits with
  | nil => rfl
  | cons c rest =>
    obtain ⟨-, hm, hp⟩ := digit_is_no_sign (c := c) (by simpa using (List.all_eq_true.mp hd) c)
    unfold signAndDigits
    split
    · rename_i h
      exact absurd (List.cons.inj h).1 hm
    · rename_i h
      exact absurd (List.cons.inj h).1 hp
    · rfl

/-- What follows the blanks does not go on with a blank. -/
theorem dropWhile_blanks {blanks sign digits : Bytes} (hb : blanks.all isSpace = true)
    (hs : sign = [] ∨ sign = [43] ∨ sign = [45]) (hd : digits.all isDigit = true) :
    (blanks ++ (sign ++ digits)).dropWhile isSpace = sign ++ digits := by
  rw [List.dropWhile_append_of_pos (fun a ha => List.all_eq_true.mp hb a ha)]
  rcases hs with rfl | rfl | rfl
  · cases digits with
    | nil => rfl
    | cons c rest =>
      have hsp := (digit_is_no_sign (c := c) (by simpa using (List.all_eq_true.mp hd) c)).1
      rw [List.nil_append, List.dropWhile_cons_of_neg (by simp [hsp])]
  · rw [List.singleton_append, List.dropWhile_cons_of_neg (by decide)]
  · rw [List.singleton_append, List.dropWhile_cons_of_neg (by decide)]

/-- The number that blanks, a sign or none, and digits spell. -/
theorem parseInt64_parts {blanks sign digits : Bytes} {n : Int}
    (hb : blanks.all isSpace = true) (hs : sign = [] ∨ sign = [43] ∨ sign = [45])
    (hd : digits.all isDigit = true) (h : parseInt64 (blanks ++ (sign ++ digits)) = some n) :
    n = if sign = [45] then -(digitsValue digits : Int) else digitsValue digits := by
  have hsd : signAndDigits (sign ++ digits) = (decide (sign = [45]), digits) := by
    rcases hs with rfl | rfl | rfl
    · exact signAndDigits_digits hd
    · rfl
    · rfl
  rw [parseInt64_eq, dropWhile_blanks hb hs hd, hsd] at h
  dsimp only at h
  split_ifs at h with h1 h2 h3 h4
  · -- Nothing at all is zero.
    simp only [List.append_eq_nil_iff] at h1
    obtain ⟨-, rfl, rfl⟩ := h1
    simpa [digitsValue] using h.symm
  all_goals simp_all

/-- What reads as a number is empty, or has these parts. -/
theorem parts_of_parseInt64 {value : Bytes} {n : Int} (h : parseInt64 value = some n) :
    value = [] ∨ ∃ blanks sign digits, value = blanks ++ (sign ++ digits) ∧
      blanks.all isSpace = true ∧ (sign = [] ∨ sign = [43] ∨ sign = [45]) ∧
      digits ≠ [] ∧ digits.all isDigit = true := by
  by_cases hv : value = []
  · exact .inl hv
  right
  have hsplit : value = value.takeWhile isSpace ++ value.dropWhile isSpace :=
    List.takeWhile_append_dropWhile.symm
  have hblanks : (value.takeWhile isSpace).all isSpace = true := List.all_takeWhile
  rw [parseInt64_eq] at h
  dsimp only at h
  rw [if_neg hv] at h
  split at h
  · cases h
  rename_i hdigits
  rw [not_or, not_not] at hdigits
  generalize value.dropWhile isSpace = body at hsplit hdigits
  unfold signAndDigits at hdigits
  split at hdigits
  · rename_i rest
    exact ⟨_, [45], rest, hsplit, hblanks, .inr (.inr rfl), hdigits⟩
  · rename_i rest
    exact ⟨_, [43], rest, hsplit, hblanks, .inr (.inl rfl), hdigits⟩
  · exact ⟨_, [], body, hsplit, hblanks, .inl rfl, hdigits⟩

/-- The checks let a number below 1 through exactly in these spellings. -/
theorem spellsNonPositive_iff {value : Bytes} {n : Int} (hr : ReadsAsCount value)
    (h : parseInt64 value = some n) : SpellsNonPositive value ↔ n < 1 := by
  have hplus : ascii "+" = [43] := by decide
  have hminus : ascii "-" = [45] := by decide
  unfold SpellsNonPositive
  rw [hplus, hminus]
  constructor
  · rintro (rfl | ⟨blanks, sign, digits, rfl, hb, -, hd, ⟨hs, hz, -⟩ | ⟨rfl, -, -⟩⟩)
    · cases h
      decide
    · have hn := parseInt64_parts hb (hs.imp_right .inl) hd h
      rw [hz] at hn
      split at hn <;> omega
    · have hn := parseInt64_parts hb (.inr (.inr rfl)) hd h
      rw [if_pos rfl] at hn
      omega
  · intro hn
    rcases parts_of_parseInt64 h with rfl | ⟨blanks, sign, digits, rfl, hb, hs, hne, hd⟩
    · exact .inl rfl
    have hnumber := parseInt64_parts hb hs hd h
    refine .inr ⟨blanks, sign, digits, rfl, hb, hne, hd, ?_⟩
    by_cases hm : sign = [45]
    · have hbounds := parseInt64_bounds h
      rw [if_pos hm] at hnumber
      refine .inr ⟨hm, ?_, by omega⟩
      -- Without blanks the value begins with '-', which is refused.
      rintro rfl
      apply hr.1
      rw [hminus, hm]
      exact List.prefix_append _ _
    · rw [if_neg hm] at hnumber
      refine .inl ⟨?_, by omega, hr.2.1⟩
      rcases hs with hs | hs | hs
      · exact .inl hs
      · exact .inr hs
      · exact absurd hs hm

/-! ## What the loop accepts -/

def isCount (option : Bytes) : Bool := caseInsensitiveEquals option (ascii "count")

/-- An option that the command has. -/
def Supported (supportMatch supportMatchloc : Bool) (option : Bytes) : Prop :=
  isCount option = true ∨
    (caseInsensitiveEquals option (ascii "match") = true ∧ supportMatch = true) ∨
    (caseInsensitiveEquals option (ascii "matchloc") = true ∧ supportMatchloc = true)

/-- An option and its value, which go through. -/
def Admitted (supportMatch supportMatchloc : Bool) (pair : Bytes × Bytes) : Prop :=
  Supported supportMatch supportMatchloc pair.1 ∧ (isCount pair.1 = true → ReadsAsCount pair.2)

/-- Options as they stand in a request. -/
def spread (pairs : List (Bytes × Bytes)) : List Bytes := pairs.flatMap fun p => [p.1, p.2]

/-- What a pair that goes through leaves. -/
def takeOption (supportMatch : Bool) (args : ScanCommandArguments) (pair : Bytes × Bytes) :
    ScanCommandArguments :=
  if isCount pair.1 then { args with count := (parseInt64 pair.2).getD 0 }
  else if caseInsensitiveEquals pair.1 (ascii "match") && supportMatch then
    { args with pattern := pair.2 }
  else { args with matchloc := pair.2 }

section

variable {supportMatch supportMatchloc : Bool}

theorem parseScanOptions_admitted {pair : Bytes × Bytes}
    (h : Admitted supportMatch supportMatchloc pair) (args : ScanCommandArguments)
    (rest : List Bytes) :
    parseScanOptions supportMatch supportMatchloc args (pair.1 :: pair.2 :: rest) =
      parseScanOptions supportMatch supportMatchloc (takeOption supportMatch args pair) rest := by
  obtain ⟨hs, hr⟩ := h
  unfold Supported isCount at hs
  unfold isCount at hr
  unfold takeOption isCount
  rw [parseScanOptions]
  by_cases hc : caseInsensitiveEquals pair.1 (ascii "count") = true
  · obtain ⟨hminus, hzero, hsome⟩ := hr hc
    obtain ⟨n, hn⟩ := Option.isSome_iff_exists.mp hsome
    rw [if_pos hc, if_pos hc, if_neg (not_or.mpr ⟨hminus, hzero⟩), hn]
    rfl
  rw [if_neg hc, if_neg hc]
  by_cases hm : (caseInsensitiveEquals pair.1 (ascii "match") && supportMatch) = true
  · rw [if_pos hm, if_pos hm]
  · have hl : (caseInsensitiveEquals pair.1 (ascii "matchloc") && supportMatchloc) = true := by
      rw [Bool.and_eq_true] at hm ⊢
      exact (hs.resolve_left hc).resolve_left hm
    rw [if_neg hm, if_neg hm, if_pos hl]

/-- Whatever does not go through ends the loop with an error. -/
theorem parseScanOptions_refused {pair : Bytes × Bytes}
    (h : ¬ Admitted supportMatch supportMatchloc pair) (args : ScanCommandArguments)
    (rest : List Bytes) :
    (parseScanOptions supportMatch supportMatchloc args (pair.1 :: pair.2 :: rest)).error ≠ [] := by
  rw [parseScanOptions]
  split_ifs with hc hv hm hl
  · intro he
    cases he
  · split
    · intro he
      cases he
    · rename_i n hn
      rw [not_or] at hv
      refine absurd ⟨.inl hc, fun _ => ⟨hv.1, hv.2, ?_⟩⟩ h
      rw [hn]
      rfl
  · rw [Bool.and_eq_true] at hm
    exact absurd ⟨.inr (.inl hm), fun hc' => absurd hc' hc⟩ h
  · rw [Bool.and_eq_true] at hl
    exact absurd ⟨.inr (.inr hl), fun hc' => absurd hc' hc⟩ h
  · intro he
    cases he

/-- One pair after the other goes through. -/
theorem parseScanOptions_spread {pairs : List (Bytes × Bytes)}
    (h : ∀ p ∈ pairs, Admitted supportMatch supportMatchloc p) (args : ScanCommandArguments) :
    parseScanOptions supportMatch supportMatchloc args (spread pairs) =
      pairs.foldl (takeOption supportMatch) args := by
  induction pairs generalizing args with
  | nil => rfl
  | cons p pairs ih =>
    show parseScanOptions supportMatch supportMatchloc args (p.1 :: p.2 :: spread pairs) = _
    rw [parseScanOptions_admitted (h p List.mem_cons_self), ih fun q hq =>
      h q (List.mem_cons_of_mem _ hq)]
    rfl

/-- Without an error the options are pairs that go through. -/
theorem spread_of_no_error {args : ScanCommandArguments} {options : List Bytes}
    (h : (parseScanOptions supportMatch supportMatchloc args options).error = []) :
    ∃ pairs, options = spread pairs ∧ ∀ p ∈ pairs, Admitted supportMatch supportMatchloc p := by
  induction options using List.twoStepInduction generalizing args with
  | nil => exact ⟨[], rfl, by simp⟩
  | singleton option => cases h
  | cons_cons option value rest ih =>
    by_cases ha : Admitted supportMatch supportMatchloc (option, value)
    · rw [parseScanOptions_admitted ha] at h
      obtain ⟨pairs, rfl, hp⟩ := ih h
      exact ⟨(option, value) :: pairs, rfl, List.forall_mem_cons.mpr ⟨ha, hp⟩⟩
    · exact absurd h (parseScanOptions_refused ha args rest)

/-- The value that decides is that of the last COUNT. -/
def lastCount (pairs : List (Bytes × Bytes)) : Option Bytes :=
  ((pairs.filter fun p => isCount p.1).getLast?).map Prod.snd

theorem takeOption_count (args : ScanCommandArguments) (p : Bytes × Bytes) :
    (takeOption supportMatch args p).count =
      if isCount p.1 = true then (parseInt64 p.2).getD 0 else args.count := by
  unfold takeOption
  split_ifs <;> rfl

theorem count_foldl_takeOption (pairs : List (Bytes × Bytes)) (args : ScanCommandArguments) :
    (pairs.foldl (takeOption supportMatch) args).count =
      match lastCount pairs with
      | none => args.count
      | some value => (parseInt64 value).getD 0 := by
  induction pairs using List.reverseRecOn with
  | nil => rfl
  | append_singleton pairs p ih =>
    unfold lastCount at *
    rw [List.foldl_concat, takeOption_count, List.filter_append]
    by_cases hc : isCount p.1 = true
    · simp [hc]
    · simpa [hc] using ih

theorem takeOption_error (args : ScanCommandArguments) (p : Bytes × Bytes) :
    (takeOption supportMatch args p).error = args.error := by
  unfold takeOption
  split_ifs <;> rfl

theorem error_foldl_takeOption (pairs : List (Bytes × Bytes)) (args : ScanCommandArguments) :
    (pairs.foldl (takeOption supportMatch) args).error = args.error := by
  induction pairs generalizing args with
  | nil => rfl
  | cons p pairs ih => rw [List.foldl_cons, ih, takeOption_error]

theorem mem_of_lastCount {pairs : List (Bytes × Bytes)} {value : Bytes}
    (h : lastCount pairs = some value) : ∃ p ∈ pairs, isCount p.1 = true ∧ p.2 = value := by
  unfold lastCount at h
  obtain ⟨p, hp, rfl⟩ := Option.map_eq_some_iff.mp h
  have hm := List.mem_filter.mp (List.mem_of_getLast? hp)
  exact ⟨p, hm.1, hm.2, rfl⟩

end

/-! ## Usable arguments -/

/-- `cursor` is "0", or "next:" and a position. -/
def IsCursor (cursor : Bytes) : Prop := cursor = ascii "0" ∨ ascii "next:" <+: cursor

/-- A cursor, then pairs of an option that the command has and a value. -/
def Usable (supportMatch supportMatchloc : Bool) (args : List Bytes) : Prop :=
  ∃ cursor pairs, args = cursor :: spread pairs ∧ IsCursor cursor ∧
    ∀ p ∈ pairs, Supported supportMatch supportMatchloc p.1

/-- What is parsed without an error can be used, and the count is positive. -/
def ParsesOnlyUsable (supportMatch supportMatchloc : Bool) (args : List Bytes) : Prop :=
  ∀ parsed, parseScanCommand supportMatch supportMatchloc args = .ok parsed →
    parsed.error = [] → Usable supportMatch supportMatchloc args ∧ 1 ≤ parsed.count

/-- All goes through, and the last COUNT spells a number below 1. -/
def CountSlips (supportMatch supportMatchloc : Bool) (args : List Bytes) : Prop :=
  ∃ cursor pairs value, args = cursor :: spread pairs ∧ IsCursor cursor ∧
    (∀ p ∈ pairs, Admitted supportMatch supportMatchloc p) ∧
    lastCount pairs = some value ∧ SpellsNonPositive value

section

variable {supportMatch supportMatchloc : Bool}

/-- The cursor decides where the loop over the options starts from. -/
theorem parseScanCommand_isCursor {cursor : Bytes} (h : IsCursor cursor) (options : List Bytes) :
    ∃ position, parseScanCommand supportMatch supportMatchloc (cursor :: options) =
      .ok (parseScanOptions supportMatch supportMatchloc { cursor := position } options) := by
  by_cases hz : cursor = ascii "0"
  · rw [parseScanCommand, if_pos hz]
    exact ⟨[], rfl⟩
  · rw [parseScanCommand, if_neg hz, if_pos (h.resolve_left hz)]
    exact ⟨cursor.drop 5, rfl⟩

theorem parseScanCommand_not_isCursor {cursor : Bytes} (h : ¬ IsCursor cursor)
    (options : List Bytes) :
    parseScanCommand supportMatch supportMatchloc (cursor :: options) =
      .ok { error := ascii "invalid cursor" } := by
  unfold IsCursor at h
  rw [not_or] at h
  rw [parseScanCommand, if_neg h.1, if_neg h.2]
  rfl

theorem parseScanCommand_ok_iff {args : List Bytes} :
    (∃ parsed, parseScanCommand supportMatch supportMatchloc args = .ok parsed) ↔ args ≠ [] := by
  constructor
  · rintro ⟨parsed, h⟩ rfl
    cases h
  · intro h
    obtain ⟨cursor, options, rfl⟩ := List.exists_cons_of_ne_nil h
    by_cases hc : IsCursor cursor
    · obtain ⟨position, hp⟩ := parseScanCommand_isCursor hc options
      exact ⟨_, hp⟩
    · exact ⟨_, parseScanCommand_not_isCursor hc options⟩

/-- Without an error there was a cursor and pairs that went through, and the count is that of
the last COUNT, or 100. -/
theorem parseScanCommand_no_error {args : List Bytes} {parsed : ScanCommandArguments}
    (h : parseScanCommand supportMatch supportMatchloc args = .ok parsed)
    (he : parsed.error = []) :
    ∃ cursor pairs, args = cursor :: spread pairs ∧ IsCursor cursor ∧
      (∀ p ∈ pairs, Admitted supportMatch supportMatchloc p) ∧
      parsed.count =
        match lastCount pairs with
        | none => 100
        | some value => (parseInt64 value).getD 0 := by
  obtain ⟨cursor, options, rfl⟩ :=
    List.exists_cons_of_ne_nil (parseScanCommand_ok_iff.mp ⟨parsed, h⟩)
  by_cases hc : IsCursor cursor
  · obtain ⟨position, hp⟩ := parseScanCommand_isCursor hc options
    rw [hp] at h
    cases h
    obtain ⟨pairs, rfl, hpairs⟩ := spread_of_no_error he
    refine ⟨cursor, pairs, rfl, hc, hpairs, ?_⟩
    rw [parseScanOptions_spread hpairs, count_foldl_takeOption]
  · rw [parseScanCommand_not_isCursor hc] at h
    cases h
    cases he

/-- The parser returns for all arguments but none at all. What it returns without an error can
be used and has a positive count, if and only if the last COUNT is not one of the spellings of
a number below 1 that go through. -/
theorem parsed_scans_are_usable_unless_a_count_slips (supportMatch supportMatchloc : Bool)
    (args : List Bytes) :
    ((∃ parsed, parseScanCommand supportMatch supportMatchloc args = .ok parsed) ↔ args ≠ []) ∧
    (ParsesOnlyUsable supportMatch supportMatchloc args ↔
      ¬ CountSlips supportMatch supportMatchloc args) := by
  refine ⟨parseScanCommand_ok_iff, ?_, ?_⟩
  · rintro h ⟨cursor, pairs, value, rfl, hc, hp, hl, hs⟩
    obtain ⟨position, hparsed⟩ := parseScanCommand_isCursor hc (spread pairs)
    rw [parseScanOptions_spread hp] at hparsed
    have hcount := (h _ hparsed (error_foldl_takeOption pairs _)).2
    rw [count_foldl_takeOption, hl] at hcount
    obtain ⟨p, hmem, hcp, rfl⟩ := mem_of_lastCount hl
    have hr := (hp p hmem).2 hcp
    obtain ⟨n, hn⟩ := Option.isSome_iff_exists.mp hr.2.2
    have hlt := (spellsNonPositive_iff hr hn).mp hs
    simp only [hn, Option.getD_some] at hcount
    omega
  · intro h parsed hparsed he
    obtain ⟨cursor, pairs, rfl, hc, hp, hcount⟩ := parseScanCommand_no_error hparsed he
    refine ⟨⟨cursor, pairs, rfl, hc, fun p hm => (hp p hm).1⟩, ?_⟩
    rw [hcount]
    cases hl : lastCount pairs with
    | none => exact by decide
    | some value =>
      obtain ⟨p, hmem, hcp, rfl⟩ := mem_of_lastCount hl
      have hr := (hp p hmem).2 hcp
      obtain ⟨n, hn⟩ := Option.isSome_iff_exists.mp hr.2.2
      have hge : ¬ n < 1 := fun hlt =>
        h ⟨cursor, pairs, p.2, rfl, hc, hp, hl, (spellsNonPositive_iff hr hn).mpr hlt⟩
      simp only [hn, Option.getD_some]
      omega

end

/-- A count of "00" is zero, and one of " -5" is negative: both are parsed without an error. -/
theorem a_count_of_two_zeros_is_parsed :
    parseScanCommand true false [ascii "0", ascii "COUNT", ascii "00"] = .ok { count := 0 } ∧
    parseScanCommand true false [ascii "0", ascii "COUNT", ascii " -5"] = .ok { count := -5 } ∧
    ¬ ParsesOnlyUsable true false [ascii "0", ascii "COUNT", ascii "00"] := by
  have hzeros : parseScanCommand true false [ascii "0", ascii "COUNT", ascii "00"] =
      .ok { count := 0 } := by decide +kernel
  refine ⟨hzeros, by decide +kernel, fun h => ?_⟩
  exact absurd (h _ hzeros rfl).2 (by decide)

end quarkdb
