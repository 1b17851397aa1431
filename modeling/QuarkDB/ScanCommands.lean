-- What the scans are asked for: a cursor in its textual form, then options in pairs.
import QuarkDB.Dispatcher

namespace quarkdb

def tolower (c : UInt8) : UInt8 := if 65 ≤ c && c ≤ 90 then c + 32 else c

def caseInsensitiveEquals (str1 str2 : Bytes) : Bool := str1.map tolower = str2.map tolower

structure ScanCommandArguments where
  cursor : Bytes := []
  count : Int := 100
  pattern : Bytes := []
  matchloc : Bytes := []
  error : Bytes := []
  deriving Repr, DecidableEq

/-- The loop over the options of a scan. After an error nothing reads the count, which
`parseInt64` may have set to something else. -/
def parseScanOptions (supportMatch supportMatchloc : Bool) :
    ScanCommandArguments → List Bytes → ScanCommandArguments
  | args, [] => args
  | args, [_] => { args with error := ascii "syntax error" }
  | args, option :: value :: rest =>
    if caseInsensitiveEquals option (ascii "count") then
      if ascii "-" <+: value ∨ value = ascii "0" then { args with error := ascii "syntax error" }
      else
        match parseInt64 value with
        | none => { args with error := ascii "value is not an integer or out of range" }
        | some count =>
          parseScanOptions supportMatch supportMatchloc { args with count } rest
    else if caseInsensitiveEquals option (ascii "match") && supportMatch then
      parseScanOptions supportMatch supportMatchloc { args with pattern := value } rest
    else if caseInsensitiveEquals option (ascii "matchloc") && supportMatchloc then
      parseScanOptions supportMatch supportMatchloc { args with matchloc := value } rest
    else { args with error := ascii "syntax error" }

def parseScanCommand (supportMatch supportMatchloc : Bool) : List Bytes →
    Except Fault ScanCommandArguments
  | [] => throw (.assertion "begin != end")
  | cursor :: options =>
    if cursor = ascii "0" then
      return parseScanOptions supportMatch supportMatchloc {} options
    else if ascii "next:" <+: cursor then
      return parseScanOptions supportMatch supportMatchloc { cursor := cursor.drop 5 } options
    else return { error := ascii "invalid cursor" }

/-- The cursor of the next page, as a reply shows it. -/
def markerOf (newcursor : Bytes) : Bytes :=
  if newcursor = [] then ascii "0" else ascii "next:" ++ newcursor

theorem markerOf_injective {cursor cursor' : Bytes} (h : markerOf cursor = markerOf cursor') :
    cursor = cursor' := by
  have hnext : ascii "next:" = [110, 101, 120, 116, 58] := by decide
  have hzero : ascii "0" = [48] := by decide
  unfold markerOf at h
  rw [hnext, hzero] at h
  split_ifs at h with h1 h2 h2
  · rw [h1, h2]
  · cases h
  · cases h
  · exact List.append_cancel_left h

namespace Formatter

/-- `Formatter::scan`: a marker, and what the page has. -/
def scan (marker : Bytes) (vec : List Bytes) : Bytes :=
  ascii "*2" ++ crlf ++ string marker ++ ascii "*" ++ decimal vec.length ++ crlf ++
    (vec.map string).flatten

end Formatter

section

variable {supportMatch supportMatchloc : Bool}

theorem parseScanCommand_markerOf (newcursor : Bytes) (options : List Bytes) :
    parseScanCommand supportMatch supportMatchloc (markerOf newcursor :: options) =
      .ok (parseScanOptions supportMatch supportMatchloc { cursor := newcursor } options) := by
  unfold markerOf
  split
  · rename_i h
    rw [h]
    rfl
  · have hzero : ascii "next:" ++ newcursor ≠ ascii "0" := by
      have hn : ascii "next:" = [110, 101, 120, 116, 58] := by decide
      have hz : ascii "0" = [48] := by decide
      rw [hn, hz]
      simp
    rw [parseScanCommand, if_neg hzero, if_pos (List.prefix_append _ _)]
    have hdrop : (ascii "next:" ++ newcursor).drop 5 = newcursor :=
      List.drop_left' (by decide)
    rw [hdrop]
    rfl

/-- A positive number in decimal is a count. -/
theorem parseScanOptions_count {count : Nat} (h1 : 1 ≤ count) (h2 : count < 2 ^ 63 - 1)
    (args : ScanCommandArguments) (rest : List Bytes) :
    parseScanOptions supportMatch supportMatchloc args
        (ascii "COUNT" :: decimal count :: rest) =
      parseScanOptions supportMatch supportMatchloc { args with count := count } rest := by
  have hname : caseInsensitiveEquals (ascii "COUNT") (ascii "count") = true := by decide
  have hparse : parseInt64 (decimal count) = some (count : Int) :=
    parseInt64_decimal (by omega) (by omega)
  have hdigits : decimal (count : Int) = digitsOf count := by
    unfold decimal
    rw [if_neg (by omega), Int.natAbs_natCast]
  have hzero : decimal (count : Int) ≠ ascii "0" := by
    intro he
    have hz : parseInt64 (ascii "0") = some 0 := by decide +kernel
    rw [he, hz] at hparse
    have := Option.some.inj hparse
    omega
  have hminus : ¬ ascii "-" <+: decimal (count : Int) := by
    rintro ⟨rest, hr⟩
    have hm : (45 : UInt8) ∈ digitsOf count := by
      rw [← hdigits, ← hr]
      exact List.mem_append_left _ (by decide)
    exact absurd (isDigit_of_mem_digitsOf hm) (by decide)
  rw [parseScanOptions, if_pos hname, if_neg (not_or.mpr ⟨hminus, hzero⟩), hparse]

end

end quarkdb
