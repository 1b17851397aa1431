-- The grammar of requests: what the parser accepts, where it waits, and what it
-- refuses, for sizes that are written as plain decimal numbers.
import QuarkDB.RequestStream

namespace quarkdb

/-! ## The grammar -/

/-- A number in decimal digits. -/
def Decimal (digits : Bytes) (n : Nat) : Prop :=
  digits ≠ [] ∧ digits.all isDigit = true ∧ digitsValue digits = n

/-- The line that announces a size. -/
def SizeLine (pfx : UInt8) (n : Nat) (line : Bytes) : Prop :=
  ∃ digits, Decimal digits n ∧ line = pfx :: digits ++ [carriage, newline]

/-- `$m CRLF <m bytes> CRLF`. -/
def ElementString (part s : Bytes) : Prop :=
  ∃ line, SizeLine 36 part.length line ∧ part.length < 2 ^ 31 - 2 ∧
    s = line ++ (part ++ [carriage, newline])

inductive ElementsString : RedisRequest → Bytes → Prop
  | nil : ElementsString [] []
  | cons {part s : Bytes} {parts : RedisRequest} {t : Bytes} (hp : ElementString part s)
      (ht : ElementsString parts t) : ElementsString (part :: parts) (s ++ t)

/-- `*n CRLF` and `n` elements, of any size. -/
def RequestString (r : RedisRequest) (s : Bytes) : Prop :=
  ∃ line t, SizeLine 42 r.length line ∧ (1 ≤ r.length ∧ r.length < 2 ^ 31) ∧
    ElementsString r t ∧ s = line ++ t

/-- The stream ends before the elements do: in a size line, which may be anything so far,
or in an element, which is not looked at before all of it is there. -/
inductive UnfinishedElements : Nat → Bytes → Prop
  | line {left : Nat} {u : Bytes} (hu : newline ∉ u) : UnfinishedElements (left + 1) u
  | element {left m : Nat} {line u : Bytes} (hl : SizeLine 36 m line) (hm : m < 2 ^ 31 - 2)
      (hu : u.length < m + 2) : UnfinishedElements (left + 1) (line ++ u)
  | next {left : Nat} {part s t : Bytes} (hp : ElementString part s)
      (ht : UnfinishedElements left t) : UnfinishedElements (left + 1) (s ++ t)

/-- The stream ends before its first request does. -/
def UnfinishedRequest (s : Bytes) : Prop :=
  newline ∉ s ∨ ∃ line n t, SizeLine 42 n line ∧ (1 ≤ n ∧ n < 2 ^ 31) ∧
    UnfinishedElements n t ∧ s = line ++ t

/-- A size line that `strtol` lets through, but that is no number of this range in decimal
digits. -/
def ReadLoosely (pfx : UInt8) (low high : Nat) (s : Bytes) : Prop :=
  ∃ n rest, announced pfx s = .size n rest ∧
    ¬ ∃ k line, (low ≤ k ∧ k < high) ∧ SizeLine pfx k line ∧ s = line ++ rest

inductive LooseElements : Nat → Bytes → Prop
  | here {left : Nat} {s : Bytes} (hs : ReadLoosely 36 0 (2 ^ 31 - 2) s) :
      LooseElements (left + 1) s
  | next {left : Nat} {part s t : Bytes} (hp : ElementString part s)
      (ht : LooseElements left t) : LooseElements (left + 1) (s ++ t)

/-- The first request of the stream has a size that is read loosely. -/
def LooseRequest (s : Bytes) : Prop :=
  ReadLoosely 42 1 (2 ^ 31) s ∨ ∃ line n t, SizeLine 42 n line ∧ (1 ≤ n ∧ n < 2 ^ 31) ∧
    LooseElements n t ∧ s = line ++ t

/-! ## Size lines -/

theorem digit_ne {digits : Bytes} (h : digits.all isDigit = true) {c : UInt8}
    (hc : isDigit c = false) : c ∉ digits := by
  intro hm
  rw [List.all_eq_true] at h
  rw [h c hm] at hc
  cases hc

theorem lineInteger_sizeLine {pfx : UInt8} {n : Nat} {line : Bytes} (h : SizeLine pfx n line)
    (hn : n < 2 ^ 31) : lineInteger pfx line = some (n : Int) := by
  obtain ⟨digits, hd, rfl⟩ := h
  have hlast : (pfx :: digits ++ [carriage, newline]).dropLast = pfx :: digits ++ [carriage] := by
    rw [List.append_cons, List.dropLast_concat]
  have hbody : (pfx :: digits ++ [carriage]).dropLast.tail = digits := by
    rw [List.dropLast_concat]
    rfl
  have hzero : digits.takeWhile (· ≠ 0) = digits := by
    apply List.takeWhile_eq_self_iff.mpr
    intro c hc
    simp only [ne_eq, decide_eq_true_eq]
    rintro rfl
    exact digit_ne hd.2.1 (by decide) hc
  have hcr : (pfx :: digits ++ [carriage]).getLast? = some carriage := List.getLast?_concat
  obtain ⟨hne, hall, hv⟩ := hd
  rw [lineInteger, hlast, hbody, hzero, hcr, parseInt64_digits hne hall (by omega), hv,
    if_neg (by simp), Option.map_some, toInt_eq (by omega) (by omega)]

theorem announced_sizeLine {pfx : UInt8} {n : Nat} {line : Bytes} (h : SizeLine pfx n line)
    (hpfx : pfx ≠ newline) (hn : n < 2 ^ 31) (rest : Bytes) :
    announced pfx (line ++ rest) = .size n rest := by
  have hi := lineInteger_sizeLine h hn
  obtain ⟨digits, hd, rfl⟩ := h
  have hline : newline ∉ pfx :: digits ++ [carriage] := by
    have := digit_ne hd.2.1 (show isDigit newline = false by decide)
    simp [this, Ne.symm hpfx]
    decide
  have hs : pfx :: digits ++ [carriage, newline] = pfx :: digits ++ [carriage] ++ [newline] := by
    simp
  rw [hs, List.append_assoc, List.singleton_append, announced_line pfx hline, ← hs, hi]

/-! ## What the grammar allows is read -/

/-- An element that is all there is read. -/
theorem elements_next {part s : Bytes} (hp : ElementString part s) (left : Nat) (t : Bytes) :
    elements true (left + 1) (s ++ t) = (elements true left t).cons part (part.length = 0) := by
  obtain ⟨line, hline, hlen, rfl⟩ := hp
  have ha := announced_sizeLine hline (by decide) (by omega) (part ++ ([carriage, newline] ++ t))
  have hs : line ++ (part ++ [carriage, newline]) ++ t =
      line ++ (part ++ ([carriage, newline] ++ t)) := by simp
  have hw : ¬ (Endless (part.length : Int) ∨
      (((part ++ ([carriage, newline] ++ t)).length : Nat) : Int) < part.length + 2) := by
    simp [Endless]
    omega
  have hdrop : ([carriage, newline] ++ t).drop 2 = t := rfl
  rw [elements, hs, ha]
  dsimp only
  rw [if_neg (by omega), if_neg (by simp), if_neg hw, Int.toNat_natCast, List.drop_left,
    List.take_left, if_pos (by simp), ← List.drop_drop, List.drop_left, hdrop]
  simp

theorem elements_string {parts : RedisRequest} {t : Bytes} (h : ElementsString parts t)
    (rest : Bytes) :
    elements true parts.length (t ++ rest) = .done parts (parts.any (· = [])) rest := by
  induction h with
  | nil => rfl
  | @cons part s parts t hp ht ih =>
    rw [List.length_cons, List.append_assoc, elements_next hp, ih]
    simp [Elements.cons]

/-- A request with no empty element is read, and what follows it is left. -/
theorem reading_string {r : RedisRequest} {s : Bytes} (h : RequestString r s) (hne : [] ∉ r)
    (rest : Bytes) : reading true (s ++ rest) = .request r rest := by
  obtain ⟨line, t, hline, ⟨h1, h2⟩, ht, rfl⟩ := h
  have hz : r.any (· = []) = false := by
    rw [List.any_eq_false]
    intro part hpart
    simp only [decide_eq_true_eq]
    rintro rfl
    exact hne hpart
  rw [reading, List.append_assoc, announced_sizeLine hline (by decide) h2]
  dsimp only
  rw [if_neg (by simp), if_neg (by omega), Int.toNat_natCast, elements_string ht, hz]

theorem elements_unfinished {left : Nat} {s : Bytes} (h : UnfinishedElements left s) :
    elements true left s = .unfinished := by
  induction h with
  | line hu => rw [elements, announced_of_not_mem hu]
  | @element left m line u hl hm hu =>
    rw [elements, announced_sizeLine hl (by decide) (by omega)]
    dsimp only
    rw [if_neg (by omega), if_neg (by simp), if_pos (Or.inr (by omega))]
  | next hp ht ih =>
    rw [elements_next hp, ih]
    rfl

theorem reading_unfinished {s : Bytes} (h : UnfinishedRequest s) :
    reading true s = .unfinished := by
  rcases h with hu | ⟨line, n, t, hline, ⟨h1, h2⟩, ht, rfl⟩
  · rw [reading, announced_of_not_mem hu]
  · rw [reading, announced_sizeLine hline (by decide) h2]
    dsimp only
    rw [if_neg (by simp), if_neg (by omega), Int.toNat_natCast, elements_unfinished ht]

/-! ## What is read is in the grammar -/

/-- A size that is not read loosely. -/
theorem sizeLine_of_announced {pfx : UInt8} {low high : Nat} (hpfx : pfx ≠ newline)
    (hhigh : high ≤ 2 ^ 31) {s rest : Bytes} {n : Int} (hs : ¬ ReadLoosely pfx low high s)
    (ha : announced pfx s = .size n rest) :
    ∃ k : Nat, n = k ∧ (low ≤ k ∧ k < high) ∧ ∃ line, SizeLine pfx k line ∧ s = line ++ rest := by
  have h : ∃ k line, (low ≤ k ∧ k < high) ∧ SizeLine pfx k line ∧ s = line ++ rest := by
    by_contra hc
    exact hs ⟨n, rest, ha, hc⟩
  obtain ⟨k, line, hk, hline, rfl⟩ := h
  rw [announced_sizeLine hline hpfx (by omega)] at ha
  cases ha
  exact ⟨k, rfl, hk, line, hline, rfl⟩

/-- What a result of `elements` says about the stream. -/
def InGrammar (left : Nat) (s : Bytes) : Elements → Prop
  | .done parts zeroSize rest =>
    parts.length = left ∧ zeroSize = parts.any (· = []) ∧
      ∃ t, ElementsString parts t ∧ s = t ++ rest
  | .unfinished => UnfinishedElements left s
  | .rejected status => status < 0
  | .minusOne => False

theorem InGrammar.cons {left : Nat} {part t s : Bytes} (hp : ElementString part t)
    {es : Elements} (h : InGrammar left s es) :
    InGrammar (left + 1) (t ++ s) (es.cons part (part.length = 0)) := by
  cases es with
  | done parts zeroSize rest =>
    obtain ⟨h1, h2, u, h3, rfl⟩ := h
    refine ⟨by simp [h1], by simp [h2], t ++ u, .cons hp h3, by simp⟩
  | unfinished => exact .next hp h
  | rejected status => exact h
  | minusOne => exact h

theorem elements_inGrammar {left : Nat} {s : Bytes} (hs : ¬ LooseElements left s) :
    InGrammar left s (elements true left s) := by
  induction left generalizing s with
  | zero => exact ⟨rfl, rfl, [], .nil, rfl⟩
  | succ left ih =>
    have hline : ¬ ReadLoosely 36 0 (2 ^ 31 - 2) s := fun h => hs (.here h)
    rw [elements]
    cases ha : announced 36 s with
    | unfinished => exact .line (RedisParser.not_mem_of_unfinished ha)
    | malformed => exact (by decide : (-1 : Int) < 0)
    | size n rest =>
      obtain ⟨m, rfl, ⟨-, hm⟩, line, hl, rfl⟩ :=
        sizeLine_of_announced (by decide) (by decide) hline ha
      dsimp only
      rw [if_neg (by omega), if_neg (by simp), Int.toNat_natCast]
      by_cases hw : Endless (m : Int) ∨ ((rest.length : Nat) : Int) < m + 2
      · rw [if_pos hw]
        apply UnfinishedElements.element hl hm
        simp only [Endless] at hw
        omega
      rw [if_neg hw]
      by_cases hcrlf : (rest.drop m).take 2 = [carriage, newline]
      · rw [if_pos hcrlf]
        simp only [Endless] at hw
        have hlen : (rest.take m).length = m := by
          rw [List.length_take]
          omega
        -- The stream is the element and what follows it.
        have hrest : rest = rest.take m ++ ([carriage, newline] ++ rest.drop (m + 2)) := by
          rw [← hcrlf, ← List.drop_drop, List.take_append_drop, List.take_append_drop]
        have hp : ElementString (rest.take m) (line ++ (rest.take m ++ [carriage, newline])) :=
          ⟨line, by rw [hlen]; exact hl, by omega, rfl⟩
        have hsplit : line ++ rest =
            line ++ (rest.take m ++ [carriage, newline]) ++ rest.drop (m + 2) := by
          conv_lhs => rw [hrest]
          simp
        have hnext : ¬ LooseElements left (rest.drop (m + 2)) := by
          intro h
          apply hs
          rw [hsplit]
          exact .next hp h
        have h := InGrammar.cons hp (ih hnext)
        rw [hlen] at h
        rw [hsplit]
        simpa using h
      · rw [if_neg hcrlf]
        exact (by decide : (-1 : Int) < 0)

/-- What a reading of the stream says about it. -/
def ReadingInGrammar (s : Bytes) : Reading → Prop
  | .request r rest => [] ∉ r ∧ ∃ t, RequestString r t ∧ s = t ++ rest
  | .unfinished => UnfinishedRequest s
  | .rejected status => status < 0
  | .fault fault => (∃ f, fault = .printing f) ∧
      ∃ r t rest, RequestString r t ∧ [] ∈ r ∧
        (getCommand r = .TX_READONLY ∨ getCommand r = .TX_READWRITE) ∧ s = t ++ rest

theorem reading_inGrammar {s : Bytes} (hs : ¬ LooseRequest s) :
    ReadingInGrammar s (reading true s) := by
  have hline : ¬ ReadLoosely 42 1 (2 ^ 31) s := fun h => hs (Or.inl h)
  rw [reading]
  cases ha : announced 42 s with
  | unfinished => exact Or.inl (RedisParser.not_mem_of_unfinished ha)
  | malformed => exact (by decide : (-1 : Int) < 0)
  | size n rest =>
    obtain ⟨k, rfl, hk, line, hl, rfl⟩ :=
      sizeLine_of_announced (by decide) (by decide) hline ha
    have hes : ¬ LooseElements k rest := fun h => hs (Or.inr ⟨line, k, rest, hl, hk, h, rfl⟩)
    have h := elements_inGrammar hes
    dsimp only
    rw [if_neg (by simp), if_neg (by omega), Int.toNat_natCast]
    cases he : elements true k rest with
    | unfinished =>
      rw [he] at h
      exact Or.inr ⟨line, k, rest, hl, hk, h, rfl⟩
    | rejected status =>
      rw [he] at h
      exact h
    | minusOne =>
      rw [he] at h
      exact absurd h not_false
    | done parts zeroSize rest' =>
      rw [he] at h
      obtain ⟨h1, h2, t, h3, rfl⟩ := h
      have hr : RequestString parts (line ++ t) :=
        ⟨line, t, by rw [h1]; exact hl, by rw [h1]; exact hk, h3, rfl⟩
      cases zeroSize with
      | false =>
        refine ⟨?_, line ++ t, hr, by simp⟩
        intro hmem
        have := (List.any_eq_false.mp h2.symm) [] hmem
        simp at this
      | true =>
        dsimp only
        cases hp : toPrintableString parts with
        | ok u => exact (by decide : (-2 : Int) < 0)
        | error fault =>
          have hmem : [] ∈ parts := by
            obtain ⟨part, hpart, hnil⟩ := List.any_eq_true.mp h2.symm
            simp only [decide_eq_true_eq] at hnil
            rwa [hnil] at hpart
          refine ⟨⟨fault, rfl⟩, parts, line ++ t, rest', hr, hmem, ?_, by simp⟩
          by_contra hc
          rw [not_or] at hc
          rw [toPrintableString_plain hc.1 hc.2] at hp
          cases hp

/-! ## The first fetch -/

/-- The first fetch of an authenticated client that has sent these bytes. -/
def firstFetch (s : Bytes) :
    Except FetchFault (Int × RedisParser BufferedReader × RedisRequest) :=
  (RedisParser.onReader (ByteSource.deliver s RedisParser.onLink)).fetch true []

theorem firstFetch_onBytes {s : Bytes} (hs : RedisParser.WithinInt s) :
    RedisParser.ReadsRequest ((firstFetch s).map RedisParser.fetchedOnBytes) (reading true s) := by
  have hu : ByteSource.unread (ByteSource.deliver s RedisParser.onLink) = s := by
    rw [ByteSource.unread_deliver]
    rfl
  have hp : (RedisParser.onReader (ByteSource.deliver s RedisParser.onLink)).onBytes.Fresh :=
    ⟨rfl, rfl, rfl⟩
  have h := RedisParser.fetch_fresh true hp []
  have hr : (RedisParser.onReader (ByteSource.deliver s RedisParser.onLink)).onBytes.reader = s := hu
  have heq : (RedisParser.onReader (ByteSource.deliver s RedisParser.onLink)).onBytes.fetch true [] =
      (firstFetch s).map RedisParser.fetchedOnBytes := by
    rcases hs with hs | hs
    · have hfit : RedisParser.Fit (fun r : BufferedReader => r.unread.length < 2 ^ 31)
          (· < 2 ^ 31) []
          (RedisParser.onReader (ByteSource.deliver s RedisParser.onLink)) := by
        refine ⟨?_, fun line size _ _ => (toInt_range _).2, (toInt_range _).2⟩
        change (ByteSource.deliver s RedisParser.onLink).unread = s at hu
        rwa [← hu] at hs
      exact (RedisParser.fetch_onBytes (BufferedReader.transparent_short (le_refl _)) (by decide)
        true [] hfit fun _ => .inr rfl).1
    · have hfit : RedisParser.Fit (fun r : BufferedReader => r.buffered.length < 2 ^ 31)
          BufferedReader.Askable []
          (RedisParser.onReader (ByteSource.deliver s RedisParser.onLink)) := by
        refine ⟨show 0 < 2 ^ 31 by decide, ?_, show 0 ≤ toInt (0 + 2) by decide,
          show toInt (0 + 2) + 2 ^ 15 < 2 ^ 31 by decide⟩
        show RedisParser.Announces _
          ([] ++ (ByteSource.unread (ByteSource.deliver s RedisParser.onLink) ++ []))
        rwa [hu, List.nil_append, List.append_nil]
      exact (RedisParser.fetch_onBytes BufferedReader.transparent_small ⟨by decide, by decide⟩
        true [] hfit fun _ => .inr rfl).1
  rw [hr, heq] at h
  exact h

theorem firstFetch_request {s rest : Bytes} {r : RedisRequest} (hs : RedisParser.WithinInt s)
    (h : reading true s = .request r rest) : ∃ p, firstFetch s = .ok (1, p, r) := by
  have hf := firstFetch_onBytes hs
  rw [h] at hf
  obtain ⟨p', hf, -⟩ := hf
  obtain ⟨p, hp, -⟩ := RedisParser.fetched_of_onBytes hf
  exact ⟨p, hp⟩

theorem firstFetch_unfinished {s : Bytes} (hs : RedisParser.WithinInt s)
    (h : reading true s = .unfinished) : ∃ p req, firstFetch s = .ok (0, p, req) := by
  have hf := firstFetch_onBytes hs
  rw [h] at hf
  obtain ⟨p', req, hf⟩ := hf
  obtain ⟨p, hp, -⟩ := RedisParser.fetched_of_onBytes hf
  exact ⟨p, req, hp⟩

theorem firstFetch_rejected {s : Bytes} {status : Int} (hs : RedisParser.WithinInt s)
    (h : reading true s = .rejected status) :
    status < 0 ∧ ∃ p req, firstFetch s = .ok (status, p, req) := by
  have hf := firstFetch_onBytes hs
  rw [h] at hf
  obtain ⟨hneg, p', req, hf⟩ := hf
  obtain ⟨p, hp, -⟩ := RedisParser.fetched_of_onBytes hf
  exact ⟨hneg, p, req, hp⟩

theorem firstFetch_fault {s : Bytes} {fault : FetchFault} (hs : RedisParser.WithinInt s)
    (h : reading true s = .fault fault) : firstFetch s = .error fault := by
  have hf := firstFetch_onBytes hs
  rw [h] at hf
  exact RedisParser.fault_of_onBytes hf

/-- A stream whose bytes an `int` can count, with no size that is read loosely: a request comes
out if and only if the stream starts with a request string without empty elements, and it is
that request; the parser waits if and only if the stream ends before its first request does; and
everything else is an error, unless a request with an empty element is a transaction that can not
be printed. -/
theorem firstFetch_iff_grammar (s : Bytes) (hint : RedisParser.WithinInt s)
    (hs : ¬ LooseRequest s) :
    (∀ r, (∃ p, firstFetch s = .ok (1, p, r)) ↔
      [] ∉ r ∧ ∃ t rest, RequestString r t ∧ s = t ++ rest) ∧
    ((∃ p req, firstFetch s = .ok (0, p, req)) ↔ UnfinishedRequest s) ∧
    (∀ rc p req, firstFetch s = .ok (rc, p, req) → rc = 1 ∨ rc = 0 ∨ rc < 0) ∧
    ∀ fault, firstFetch s = .error fault → ∃ r t rest, RequestString r t ∧ [] ∈ r ∧
      (getCommand r = .TX_READONLY ∨ getCommand r = .TX_READWRITE) ∧ s = t ++ rest := by
  have hg := reading_inGrammar hs
  have hstring : ∀ {r t rest}, [] ∉ r → RequestString r t → s = t ++ rest →
      reading true s = .request r rest := by
    intro r t rest hne hr hst
    rw [hst]
    exact reading_string hr hne rest
  cases hr : reading true s with
  | request parts rest =>
    rw [hr] at hg hstring
    obtain ⟨p, hf⟩ := firstFetch_request hint hr
    rw [hf]
    refine ⟨?_, ?_, ?_, nofun⟩
    · intro r
      constructor
      · rintro ⟨q, h⟩
        cases h
        obtain ⟨hne, t, ht, hst⟩ := hg
        exact ⟨hne, t, rest, ht, hst⟩
      · rintro ⟨hne, t, rest', ht, hst⟩
        cases hstring hne ht hst
        exact ⟨p, rfl⟩
    · constructor
      · rintro ⟨q, req, h⟩
        cases h
      · intro h
        rw [reading_unfinished h] at hr
        cases hr
    · intro rc q req h
      cases h
      exact Or.inl rfl
  | unfinished =>
    rw [hr] at hg hstring
    obtain ⟨p, req, hf⟩ := firstFetch_unfinished hint hr
    rw [hf]
    refine ⟨?_, ?_, ?_, nofun⟩
    · intro r
      constructor
      · rintro ⟨q, h⟩
        cases h
      · rintro ⟨hne, t, rest', ht, hst⟩
        cases hstring hne ht hst
    · exact ⟨fun _ => hg, fun _ => ⟨p, req, rfl⟩⟩
    · intro rc q req h
      cases h
      exact Or.inr (Or.inl rfl)
  | rejected status =>
    rw [hr] at hstring
    obtain ⟨hneg, p, req, hf⟩ := firstFetch_rejected hint hr
    rw [hf]
    refine ⟨?_, ?_, ?_, nofun⟩
    · intro r
      constructor
      · rintro ⟨q, h⟩
        cases h
        omega
      · rintro ⟨hne, t, rest', ht, hst⟩
        cases hstring hne ht hst
    · constructor
      · rintro ⟨q, req', h⟩
        cases h
        omega
      · intro h
        rw [reading_unfinished h] at hr
        cases hr
    · intro rc q req' h
      cases h
      exact Or.inr (Or.inr hneg)
  | fault fault =>
    rw [hr] at hg hstring
    rw [firstFetch_fault hint hr]
    refine ⟨?_, ?_, nofun, ?_⟩
    · intro r
      constructor
      · rintro ⟨q, h⟩
        cases h
      · rintro ⟨hne, t, rest', ht, hst⟩
        cases hstring hne ht hst
    · constructor
      · rintro ⟨q, req', h⟩
        cases h
      · intro h
        rw [reading_unfinished h] at hr
        cases hr
    · intro fault' h
      cases h
      exact hg.2

theorem not_readLoosely {pfx : UInt8} {low high k : Nat} {line rest : Bytes}
    (hpfx : pfx ≠ newline) (hk : low ≤ k ∧ k < high) (hhigh : high ≤ 2 ^ 31)
    (hl : SizeLine pfx k line) : ¬ ReadLoosely pfx low high (line ++ rest) := by
  rintro ⟨n, rest', ha, hno⟩
  rw [announced_sizeLine hl hpfx (by omega)] at ha
  cases ha
  exact hno ⟨k, line, hk, hl, rfl⟩

/-- No element starts as two different ones. -/
theorem elementString_unique {part part' s s' t t' : Bytes} (h : ElementString part s)
    (h' : ElementString part' s') (heq : s ++ t = s' ++ t') : t = t' := by
  obtain ⟨line, hl, hn, rfl⟩ := h
  obtain ⟨line', hl', hn', rfl⟩ := h'
  have ha := announced_sizeLine hl (by decide) (by omega) (part ++ [carriage, newline] ++ t)
  rw [← List.append_assoc, heq, List.append_assoc,
    announced_sizeLine hl' (by decide) (by omega)] at ha
  injection ha with hsize hrest
  have hlen : part'.length = part.length := by omega
  simp only [List.append_assoc] at hrest
  obtain ⟨-, htail⟩ := List.append_inj hrest hlen
  exact (List.append_cancel_left htail).symm

/-- A stream that starts with a request string has no size that is read loosely. -/
theorem not_looseElements {r : RedisRequest} {t : Bytes} (h : ElementsString r t) (rest : Bytes) :
    ¬ LooseElements r.length (t ++ rest) := by
  induction h with
  | nil => exact fun h => by cases h
  | @cons part s parts t hp _ ih =>
    intro h
    rw [List.append_assoc, List.length_cons] at h
    generalize hstr : s ++ (t ++ rest) = str at h
    cases h with
    | here h =>
      obtain ⟨line, hl, hn, rfl⟩ := hp
      rw [← hstr, List.append_assoc] at h
      exact not_readLoosely (by decide) ⟨Nat.zero_le _, hn⟩ (by decide) hl h
    | next hp' ht' =>
      rw [← elementString_unique hp hp' hstr] at ht'
      exact ih ht'

theorem not_looseRequest {r : RedisRequest} {t : Bytes} (h : RequestString r t) (rest : Bytes) :
    ¬ LooseRequest (t ++ rest) := by
  obtain ⟨line, body, hl, hn, hbody, rfl⟩ := h
  rw [List.append_assoc]
  rintro (h | ⟨line', n, tail, hl', hn', htail, heq⟩)
  · exact not_readLoosely (by decide) hn (Nat.le_refl _) hl h
  · have ha := announced_sizeLine hl (by decide) hn.2 (body ++ rest)
    rw [heq, announced_sizeLine hl' (by decide) hn'.2] at ha
    injection ha with hsize hrest
    obtain rfl : n = r.length := by omega
    rw [hrest] at htail
    exact not_looseElements hbody rest htail

/-- Two requests in one stream: the first of them comes out. -/
theorem firstFetch_of_get :
    ∃ p, firstFetch (ascii "*2\r\n$3\r\nGET\r\n$1\r\nx\r\n*1\r\n") =
      .ok (1, p, [ascii "GET", ascii "x"]) := by
  have hcount : SizeLine 42 2 (ascii "*2\r\n") := ⟨[50], ⟨by decide, by decide, by decide⟩, by decide⟩
  have hsize : SizeLine 36 3 (ascii "$3\r\n") := ⟨[51], ⟨by decide, by decide, by decide⟩, by decide⟩
  have hsize' : SizeLine 36 1 (ascii "$1\r\n") := ⟨[49], ⟨by decide, by decide, by decide⟩, by decide⟩
  have hr : RequestString [ascii "GET", ascii "x"]
      (ascii "*2\r\n" ++ ((ascii "$3\r\n" ++ (ascii "GET" ++ [carriage, newline])) ++
        ((ascii "$1\r\n" ++ (ascii "x" ++ [carriage, newline])) ++ []))) :=
    ⟨_, _, hcount, by decide, .cons ⟨_, hsize, by decide, rfl⟩
      (.cons ⟨_, hsize', by decide, rfl⟩ .nil), rfl⟩
  have hs : ascii "*2\r\n$3\r\nGET\r\n$1\r\nx\r\n*1\r\n" =
      (ascii "*2\r\n" ++ ((ascii "$3\r\n" ++ (ascii "GET" ++ [carriage, newline])) ++
        ((ascii "$1\r\n" ++ (ascii "x" ++ [carriage, newline])) ++ []))) ++ ascii "*1\r\n" := by
    decide
  refine ((firstFetch_iff_grammar _ (.inl (by decide)) ?_).1 _).mpr ⟨by decide, _, _, hr, hs⟩
  rw [hs]
  exact not_looseRequest hr _

/-- The start of a line of any bytes is waited for, and a request of size 0 is returned. -/
theorem firstFetch_not_the_grammar :
    (∃ p req, firstFetch (ascii "hello") = .ok (0, p, req)) ∧
      (∀ r t, RequestString r t → ¬ ascii "hello" <+: t) ∧
      ∃ p, firstFetch (ascii "*0\r\n") = .ok (1, p, []) := by
  refine ⟨firstFetch_unfinished (.inl (by decide)) (by decide +kernel), ?_,
    firstFetch_request (.inl (by decide)) (show _ = Reading.request [] [] by decide +kernel)⟩
  rintro r t ⟨line, body, ⟨digits, -, rfl⟩, -, -, rfl⟩ h
  simp [ascii] at h

end quarkdb
