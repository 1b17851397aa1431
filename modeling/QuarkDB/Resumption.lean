-- The parser takes up where it stopped, wherever that was, except at a size of -1,
-- which is also its mark for a size that is not read yet.
import QuarkDB.RequestStream

namespace quarkdb

namespace RedisParser

variable {p : RedisParser Bytes} {c : Bytes}

/-! ## A call with more input -/

/-- The same result, when there is more input after it. -/
def moreResult {α : Type} (c : Bytes) (result : Int × α × RedisParser Bytes) :
    Int × α × RedisParser Bytes :=
  (result.1, result.2.1, result.2.2.more c)

/-- The call came to an end, and does the same with more input. -/
structure Settled {α : Type} (f : RedisParser Bytes → Except FetchFault (Int × α × RedisParser Bytes))
    (p : RedisParser Bytes) (c : Bytes) : Prop where
  status_ne : ∀ r, f p = .ok r → r.1 ≠ 0
  more_eq : f (p.more c) = (f p).map (moreResult c)

@[simp] theorem more_nil (p : RedisParser Bytes) : p.more [] = p := by
  simp [more]

theorem pull_append {len : Int} {s : Bytes} (h : 0 < len ∧ len ≤ s.length) (c : Bytes) :
    pull len (s ++ c) = ((pull len s).1, (pull len s).2.1, (pull len s).2.2 ++ c) := by
  have hs : 0 < len ∧ len ≤ (s ++ c).length := by simp; omega
  have hl : len.toNat ≤ s.length := by omega
  rw [pull, pull, if_pos h, if_pos hs, List.take_append_of_le_length hl,
    List.drop_append_of_le_length hl]

theorem checkString_more (rlen : Int) (str : Bytes) (p : RedisParser Bytes) (c : Bytes) :
    (p.more c).checkString rlen str = (p.checkString rlen str).map (moreResult c) := by
  simp only [checkString]
  repeat' split
  all_goals rfl

theorem checkString_settled {rlen : Int} (h : 0 < rlen) {str : Bytes} {p : RedisParser Bytes}
    {r : Int × Bytes × RedisParser Bytes} (hr : p.checkString rlen str = .ok r) : r.1 ≠ 0 := by
  unfold checkString at hr
  rw [if_neg (by omega)] at hr
  repeat' split at hr
  all_goals cases hr
  all_goals simp
  omega

theorem readString_more (nbytes : Int) (p : RedisParser Bytes) (c : Bytes) :
    Settled (readString nbytes) p c ∨ p.readString nbytes = .ok (0, [], p) := by
  by_cases h : 0 < toInt (nbytes + 2) ∧ toInt (nbytes + 2) ≤ p.reader.length
  · have hstr : ∀ c, (p.more c).readString nbytes =
        (({ p with reader := (pull (toInt (nbytes + 2)) p.reader).2.2 } : RedisParser Bytes).more
          c).checkString (toInt (nbytes + 2)) (pull (toInt (nbytes + 2)) p.reader).2.1 := by
      intro c
      have hc : ByteSource.consumePinned (toInt (nbytes + 2)) (p.more c).reader =
          pull (toInt (nbytes + 2)) (p.reader ++ c) := rfl
      have hlen : (pull (toInt (nbytes + 2)) p.reader).1 = toInt (nbytes + 2) := by
        rw [pull, if_pos h]
      simp only [readString, hc, pull_append h c, hlen]
      rfl
    have h0 := hstr []
    rw [more_nil, more_nil] at h0
    left
    constructor
    · intro r hr
      rw [h0] at hr
      exact checkString_settled h.1 hr
    · rw [h0, hstr, checkString_more]
  · exact Or.inr (readString_wait (by omega))

theorem readSized_big {authenticated : Bool} {p : RedisParser Bytes}
    (h : (!authenticated && 1048576 ≤ p.element_size) = true) :
    p.readSized authenticated = .ok (-2, [], p) := by
  rw [readSized, if_pos h]

theorem readSized_small {authenticated : Bool} {p : RedisParser Bytes}
    (h : ¬ (!authenticated && 1048576 ≤ p.element_size) = true) :
    p.readSized authenticated = p.readString p.element_size := by
  rw [readSized, if_neg h]

theorem readSized_more (authenticated : Bool) (p : RedisParser Bytes) (c : Bytes) :
    Settled (readSized authenticated) p c ∨ p.readSized authenticated = .ok (0, [], p) := by
  by_cases h : (!authenticated && 1048576 ≤ p.element_size) = true
  · have hc : (p.more c).readSized authenticated = .ok (-2, [], p.more c) := readSized_big h
    left
    constructor
    · intro r hr
      rw [readSized_big h] at hr
      cases hr
      simp
    · rw [readSized_big h, hc]
      rfl
  · have hc : (p.more c).readSized authenticated = (p.more c).readString p.element_size :=
      readSized_small h
    rw [readSized_small h]
    rcases readString_more p.element_size p c with hs | hw
    · left
      constructor
      · intro r hr
        rw [readSized_small h] at hr
        exact hs.status_ne r hr
      · rw [readSized_small h, hc]
        exact hs.more_eq
    · exact Or.inr hw

/-! ## Lines -/

theorem readInteger_more {pfx : UInt8} (h : newline ∈ p.reader) (c : Bytes) :
    (p.more c).readInteger pfx =
      ((p.readInteger pfx).1, (p.readInteger pfx).2.1, (p.readInteger pfx).2.2.more c) := by
  obtain ⟨line, rest, hr, hl⟩ := exists_line h
  have hrc : (p.more c).reader = line ++ newline :: (rest ++ c) := by
    rw [more, hr, List.append_assoc, List.cons_append]
  rw [readInteger_line pfx hr hl, readInteger_line pfx hrc hl]
  have hcurrent : (p.more c).current_integer = p.current_integer := rfl
  rw [hcurrent]
  cases lineInteger pfx (p.current_integer ++ line ++ [newline]) <;> rfl

/-- A part of a line is kept. -/
theorem readInteger_resume {pfx : UInt8} (h : newline ∉ p.reader) (c : Bytes) :
    (p.more c).readInteger pfx = ((p.appendInteger p.reader []).more c).readInteger pfx := by
  by_cases hc : newline ∈ c
  · obtain ⟨line, rest, rfl, hl⟩ := exists_line hc
    have h1 : (p.more (line ++ newline :: rest)).reader =
        (p.reader ++ line) ++ newline :: rest := by
      rw [more, List.append_assoc]
    have h2 : ((p.appendInteger p.reader []).more (line ++ newline :: rest)).reader =
        line ++ newline :: rest := rfl
    rw [readInteger_line pfx h1 (by simp [h, hl]), readInteger_line pfx h2 hl]
    simp [more, appendInteger]
  · have h1 : newline ∉ (p.more c).reader := by simp [more, h, hc]
    have h2 : newline ∉ ((p.appendInteger p.reader []).more c).reader := by
      simp [more, appendInteger, hc]
    rw [readInteger_unfinished pfx h1, readInteger_unfinished pfx h2]
    simp [more, appendInteger]

/-! ## Elements -/

/-- What a call does with more input: the same if it came to an end, and else what it does
when it is called again, unless it stands at a size of -1. -/
inductive Follows {α : Type} (f : RedisParser Bytes → Except FetchFault (Int × α × RedisParser Bytes))
    (p : RedisParser Bytes) (c : Bytes) : Prop
  | settled (hs : Settled f p c)
  | waiting (a : α) (p' : RedisParser Bytes) (hw : f p = .ok (0, a, p'))
    (h : f (p.more c) = f (p'.more c) ∨ f (p.more c) = .error .outOfBounds)

theorem readElement_known {authenticated : Bool} (h : p.element_size ≠ -1) :
    p.readElement authenticated = p.readSized authenticated := by
  rw [readElement, if_neg h]

theorem readElement_line {authenticated : Bool} (h : p.element_size = -1) {n : Int}
    {q : RedisParser Bytes} (hr : p.readInteger 36 = (1, n, q)) :
    p.readElement authenticated = (q.startElement n).readSized authenticated := by
  rw [readElement, if_pos h, hr]
  rfl

theorem readElement_stops {authenticated : Bool} (h : p.element_size = -1) {rc n : Int}
    (hrc : rc ≤ 0) {q : RedisParser Bytes} (hr : p.readInteger 36 = (rc, n, q)) :
    p.readElement authenticated = .ok (rc, [], q) := by
  rw [readElement, if_pos h, hr]
  dsimp only
  rw [if_pos hrc]

/-- The statuses of `readInteger`. -/
theorem readInteger_status (pfx : UInt8) (p : RedisParser Bytes) :
    newline ∉ p.reader ∧ p.readInteger pfx = (0, 0, p.appendInteger p.reader []) ∨
      newline ∈ p.reader ∧ (∃ q, p.readInteger pfx = (-1, 0, q)) ∨
      newline ∈ p.reader ∧ ∃ n rest, p.readInteger pfx =
        (1, n, { p with reader := rest, current_integer := [] }) ∧
        rest.length < p.reader.length ∧ -2 ^ 31 ≤ n ∧ n < 2 ^ 31 := by
  by_cases h : newline ∈ p.reader
  · obtain ⟨line, rest, hr, hl⟩ := exists_line h
    rw [readInteger_line pfx hr hl]
    cases hi : lineInteger pfx (p.current_integer ++ line ++ [newline]) with
    | none => exact Or.inr (Or.inl ⟨h, _, rfl⟩)
    | some n =>
      refine Or.inr (Or.inr ⟨h, n, rest, rfl, ?_, lineInteger_range hi⟩)
      simp [hr]
      omega
  · exact Or.inl ⟨h, readInteger_unfinished pfx h⟩

/-- At a size of -1 the parser goes on if nothing has come, and fails if something has. -/
theorem readSized_minusOne (authenticated : Bool) (h : p.element_size = -1) :
    p.readSized authenticated = if p.reader = [] then .ok (0, [], p) else .error .outOfBounds := by
  rw [readSized_eq authenticated (by omega) (by omega), if_pos h]

theorem readElement_at_minusOne (authenticated : Bool) {q : RedisParser Bytes}
    (h : q.element_size = -1) (hc : q.current_integer = [])
    (hw : q.readSized authenticated = .ok (0, [], q)) (c : Bytes) :
    (q.more c).readSized authenticated = (q.more c).readElement authenticated ∨
      (q.more c).readSized authenticated = .error .outOfBounds := by
  rw [readSized_minusOne authenticated h] at hw
  have hr : q.reader = [] := by
    by_contra hne
    rw [if_neg hne] at hw
    cases hw
  cases c with
  | nil =>
    left
    have hq : q.appendInteger q.reader [] = q := by
      cases q
      simp only at hr hc
      simp [appendInteger, hr, hc]
    have hi := readInteger_unfinished 36 (p := q) (by simp [hr])
    rw [hq] at hi
    rw [more_nil, readElement_stops h (Int.le_refl _) hi, readSized_minusOne authenticated h,
      if_pos hr]
  | cons b c =>
    right
    have hne : (q.more (b :: c)).reader ≠ [] := by simp [more]
    rw [readSized_minusOne authenticated (show (q.more (b :: c)).element_size = -1 from h),
      if_neg hne]

theorem readElement_more (authenticated : Bool) (p : RedisParser Bytes) (c : Bytes) :
    Follows (readElement authenticated) p c := by
  by_cases hs : p.element_size = -1
  · have hsc : (p.more c).element_size = -1 := hs
    rcases readInteger_status 36 p with ⟨hn, hr⟩ | ⟨hn, q, hr⟩ | ⟨hn, n, rest, hr, -⟩
    · -- The line has not ended.
      have hw := @readElement_stops p authenticated hs 0 0 (Int.le_refl _) _ hr
      refine .waiting [] _ hw (Or.inl ?_)
      have hsq : ((p.appendInteger p.reader []).more c).element_size = -1 := hs
      rw [readElement, readElement, if_pos hsc, if_pos hsq, readInteger_resume hn c]
    · -- The line is no size.
      have hrc := @readInteger_more p 36 hn c
      rw [hr] at hrc
      have h1 := @readElement_stops p authenticated hs (-1) 0 (by decide) _ hr
      have h2 := @readElement_stops _ authenticated hsc (-1) 0 (by decide) _ hrc
      apply Follows.settled
      constructor
      · intro r hr
        rw [h1] at hr
        cases hr
        simp
      · rw [h1, h2]
        rfl
    · -- A size has been read.
      have hrc := @readInteger_more p 36 hn c
      rw [hr] at hrc
      have h1 := @readElement_line p authenticated hs n _ hr
      have h2 := @readElement_line _ authenticated hsc n _ hrc
      rcases readSized_more authenticated
        (({ p with reader := rest, current_integer := [] } : RedisParser Bytes).startElement n) c
        with hd | hw
      · apply Follows.settled
        constructor
        · intro r hr
          rw [h1] at hr
          exact hd.status_ne r hr
        · rw [h1, h2]
          exact hd.more_eq
      · refine .waiting [] _ (h1.trans hw) ?_
        by_cases hm : n = -1
        · have := readElement_at_minusOne authenticated (by rw [hm]; rfl) rfl hw c
          rw [h2]
          exact this
        · left
          rw [h2]
          symm
          exact readElement_known (show n ≠ -1 from hm)
  · have hc : (p.more c).element_size ≠ -1 := hs
    rcases readSized_more authenticated p c with hd | hw
    · apply Follows.settled
      constructor
      · intro r hr
        rw [readElement_known hs] at hr
        exact hd.status_ne r hr
      · rw [readElement_known hs, readElement_known hc]
        exact hd.more_eq
    · rw [← readElement_known hs] at hw
      exact .waiting [] p hw (Or.inl rfl)

/-! ### What reading an element leaves alone -/

/-- The second parser is at the same element of the same request, and has not more to read. -/
structure SamePlace (p p' : RedisParser Bytes) : Prop where
  request_size : p'.request_size = p.request_size
  current_element : p'.current_element = p.current_element
  reader_le : p'.reader.length ≤ p.reader.length

theorem SamePlace.trans {p p' p'' : RedisParser Bytes} (h : SamePlace p p')
    (h' : SamePlace p' p'') : SamePlace p p'' :=
  ⟨h'.request_size.trans h.request_size, h'.current_element.trans h.current_element,
    Nat.le_trans h'.reader_le h.reader_le⟩

theorem readLine_samePlace (fuel : Nat) (p : RedisParser Bytes) :
    SamePlace p (p.readLine fuel).2 := by
  induction fuel generalizing p with
  | zero => exact ⟨rfl, rfl, Nat.le_refl _⟩
  | succ fuel ih =>
    have hle := length_pull_le 1 p.reader
    rw [readLine]
    dsimp only
    split
    · exact ⟨rfl, rfl, hle⟩
    · split
      · exact ⟨rfl, rfl, hle⟩
      · apply SamePlace.trans _ (ih _)
        exact ⟨rfl, rfl, hle⟩

theorem readInteger_samePlace (pfx : UInt8) (p : RedisParser Bytes) :
    SamePlace p (p.readInteger pfx).2.2 := by
  have h := readLine_samePlace ((ByteSource.unread p.reader).length + 1) p
  rw [readInteger]
  dsimp only
  split
  · exact h
  · split
    · exact h
    · exact ⟨h.request_size, h.current_element, h.reader_le⟩

theorem readSized_samePlace {authenticated : Bool} {rc : Int} {str : Bytes} {p' : RedisParser Bytes}
    (h : p.readSized authenticated = .ok (rc, str, p')) : SamePlace p p' := by
  have hle : (ByteSource.consumePinned (toInt (p.element_size + 2)) p.reader).2.2.length ≤
      p.reader.length := length_pull_le _ _
  unfold readSized at h
  split at h
  · cases h
    exact ⟨rfl, rfl, Nat.le_refl _⟩
  · unfold readString checkString at h
    dsimp only at h
    repeat' split at h
    all_goals cases h
    all_goals exact ⟨rfl, rfl, hle⟩

theorem readElement_samePlace {authenticated : Bool} {rc : Int} {str : Bytes}
    {p' : RedisParser Bytes} (h : p.readElement authenticated = .ok (rc, str, p')) :
    SamePlace p p' := by
  have hi := readInteger_samePlace 36 p
  unfold readElement at h
  split at h
  · dsimp only at h
    split at h
    · cases h
      exact hi
    · have := readSized_samePlace h
      exact hi.trans ⟨this.request_size, this.current_element, this.reader_le⟩
  · exact readSized_samePlace h

/-! ## Requests -/

/-- The elements that are left. -/
def left (p : RedisParser Bytes) : Nat := (p.request_size - p.current_element).toNat

theorem left_nextElement {n : Nat} (h : p.left = n + 1) : p.nextElement.left = n := by
  simp only [left, nextElement] at *
  omega

def moreFetched (c : Bytes) (result : Int × RedisParser Bytes × RedisRequest) :
    Int × RedisParser Bytes × RedisRequest :=
  (result.1, result.2.1.more c, result.2.2)

/-- What `fetch`, or a part of it, does with more input. -/
inductive FollowsFetch
    (f : RedisParser Bytes → RedisRequest →
      Except FetchFault (Int × RedisParser Bytes × RedisRequest))
    (p : RedisParser Bytes) (req : RedisRequest) (c : Bytes) : Prop
  | settled (hne : ∀ r, f p req = .ok r → r.1 ≠ 0)
      (h : f (p.more c) req = (f p req).map (moreFetched c))
  | waiting (p' : RedisParser Bytes) (req' : RedisRequest) (hw : f p req = .ok (0, p', req'))
      (hsize : p'.request_size = p.request_size)
      (h : f (p.more c) req = f (p'.more c) req' ∨ f (p.more c) req = .error .outOfBounds)

theorem readElements_stops {authenticated : Bool} {n : Nat} {rc : Int} {str : Bytes}
    {p' : RedisParser Bytes} (h : p.readElement authenticated = .ok (rc, str, p')) (hrc : rc ≤ 0)
    (req : RedisRequest) : readElements authenticated (n + 1) p req = .ok (rc, p', req) := by
  rw [readElements, h]
  show (if rc ≤ 0 then _ else _) = _
  rw [if_pos hrc]
  rfl

theorem readElements_next {authenticated : Bool} {n : Nat} {rc : Int} {str : Bytes}
    {p' : RedisParser Bytes} (h : p.readElement authenticated = .ok (rc, str, p'))
    (hrc : ¬ rc ≤ 0) (req : RedisRequest) :
    readElements authenticated (n + 1) p req =
      readElements authenticated n p'.nextElement (req.set p'.current_element str) := by
  rw [readElements, h]
  show (if rc ≤ 0 then _ else _) = _
  rw [if_neg hrc]

theorem readElements_error {authenticated : Bool} {n : Nat} {fault : FetchFault}
    (h : p.readElement authenticated = .error fault) (req : RedisRequest) :
    readElements authenticated (n + 1) p req = .error fault := by
  rw [readElements, h]
  rfl

/-- The loop of `fetch` over the elements that are left. -/
def readLeft (authenticated : Bool) (p : RedisParser Bytes) (req : RedisRequest) :
    Except FetchFault (Int × RedisParser Bytes × RedisRequest) :=
  readElements authenticated p.left p req

theorem readLeft_of {authenticated : Bool} {n : Nat} (h : p.left = n) (req : RedisRequest) :
    readLeft authenticated p req = readElements authenticated n p req := by
  rw [readLeft, h]

theorem readLeft_more (authenticated : Bool) (p : RedisParser Bytes) (req : RedisRequest)
    (c : Bytes) : FollowsFetch (readLeft authenticated) p req c := by
  generalize hn : p.left = n
  induction n generalizing p req with
  | zero =>
    have hnc : (p.more c).left = 0 := hn
    apply FollowsFetch.settled
    · intro r hr
      rw [readLeft_of hn] at hr
      cases hr
      simp
    · rw [readLeft_of hn, readLeft_of hnc]
      rfl
  | succ n ih =>
    have hnc : (p.more c).left = n + 1 := hn
    cases readElement_more authenticated p c with
    | waiting str p' hw h =>
      have hp := readElement_samePlace hw
      have hp' : (p'.more c).left = n + 1 := by
        simp only [left, more, hp.request_size, hp.current_element] at hn ⊢
        exact hn
      apply FollowsFetch.waiting p' req _ hp.request_size
      · rw [readLeft_of hnc, readLeft_of hp']
        rcases h with h | h
        · left
          rw [readElements, readElements, h]
        · exact Or.inr (readElements_error h req)
      · rw [readLeft_of hn, readElements_stops hw (Int.le_refl _)]
    | settled hs =>
      have hec := hs.more_eq
      cases he : p.readElement authenticated with
      | error fault =>
        rw [he] at hec
        apply FollowsFetch.settled
        · intro r hr
          rw [readLeft_of hn, readElements_error he] at hr
          cases hr
        · rw [readLeft_of hn, readLeft_of hnc, readElements_error he, readElements_error hec]
          rfl
      | ok r =>
        obtain ⟨rc, str, p'⟩ := r
        have hp := readElement_samePlace he
        rw [he] at hec
        by_cases hrc : rc ≤ 0
        · apply FollowsFetch.settled
          · intro r hr
            rw [readLeft_of hn, readElements_stops he hrc] at hr
            cases hr
            exact hs.status_ne _ he
          · rw [readLeft_of hn, readLeft_of hnc, readElements_stops he hrc,
              readElements_stops hec hrc]
            rfl
        · -- The element is there, and the others follow.
          have hleft : p'.nextElement.left = n := by
            apply left_nextElement
            simp only [left, hp.request_size, hp.current_element] at hn ⊢
            exact hn
          have hleftc : (p'.nextElement.more c).left = n := hleft
          have hstep : readLeft authenticated p req =
              readLeft authenticated p'.nextElement (req.set p'.current_element str) := by
            rw [readLeft_of hn, readLeft_of hleft, readElements_next he hrc]
          have hstepc : readLeft authenticated (p.more c) req =
              readLeft authenticated (p'.nextElement.more c) (req.set p'.current_element str) := by
            rw [readLeft_of hnc, readLeft_of hleftc, readElements_next hec hrc]
            rfl
          cases ih p'.nextElement (req.set p'.current_element str) hleft with
          | settled hne h =>
            apply FollowsFetch.settled
            · rw [hstep]
              exact hne
            · rw [hstep, hstepc]
              exact h
          | waiting p'' req'' hw hsize h =>
            apply FollowsFetch.waiting p'' req'' _ (hsize.trans hp.request_size)
            · rw [hstepc]
              exact h
            · rw [hstep]
              exact hw

theorem readRequest_eq (authenticated : Bool) (p : RedisParser Bytes) (req : RedisRequest) :
    p.readRequest authenticated req =
      match readLeft authenticated p req with
      | .error fault => .error fault
      | .ok (rc, p', req') =>
        if rc ≤ 0 then .ok (rc, p', req')
        else if p'.encounteredZeroSize then
          match toPrintableString req' with
          | .ok () => .ok (-2, { p' with request_size := 0 }, req')
          | .error fault => .error (.printing fault)
        else .ok (1, { p' with request_size := 0 }, req') := by
  rw [readRequest, readLeft, left]
  cases readElements authenticated (p.request_size - p.current_element).toNat p req with
  | error fault => rfl
  | ok r => rfl

theorem readRequest_more (authenticated : Bool) (p : RedisParser Bytes) (req : RedisRequest)
    (c : Bytes) : FollowsFetch (fun p req => p.readRequest authenticated req) p req c := by
  cases readLeft_more authenticated p req c with
  | waiting p' req' hw hsize h =>
    apply FollowsFetch.waiting p' req' _ hsize
    · simp only [readRequest_eq]
      rcases h with h | h
      · rw [h]
        simp
      · rw [h]
        simp
    · simp only [readRequest_eq, hw]
      simp
  | settled hne h =>
    cases hl : readLeft authenticated p req with
    | error fault =>
      rw [hl] at h
      apply FollowsFetch.settled
      · simp [readRequest_eq, hl]
      · simp only [readRequest_eq, hl, h]
        rfl
    | ok r =>
      obtain ⟨rc, p', req'⟩ := r
      have hrc : rc ≠ 0 := hne _ hl
      rw [hl] at h
      have hm : readLeft authenticated (p.more c) req = .ok (rc, p'.more c, req') := h
      have hz : (p'.more c).encounteredZeroSize = p'.encounteredZeroSize := rfl
      apply FollowsFetch.settled
      · intro r hr
        simp only [readRequest_eq, hl] at hr
        repeat' split at hr
        all_goals cases hr
        all_goals simp
        exact hrc
      · simp only [readRequest_eq, hl, hm, hz]
        by_cases h0 : rc ≤ 0
        · simp only [if_pos h0]
          rfl
        simp only [if_neg h0]
        cases p'.encounteredZeroSize with
        | false => rfl
        | true => cases toPrintableString req' <;> rfl

theorem fetch_midway {authenticated : Bool} (h : p.request_size ≠ 0) (req : RedisRequest) :
    p.fetch authenticated req = p.readRequest authenticated req := by
  rw [fetch, if_neg h]

theorem fetch_stops {authenticated : Bool} (h : p.request_size = 0) {rc n : Int} (hrc : rc ≤ 0)
    {q : RedisParser Bytes} (hr : p.readInteger 42 = (rc, n, q)) (req : RedisRequest) :
    p.fetch authenticated req = .ok (rc, q, []) := by
  rw [fetch, if_pos h, hr]
  dsimp only
  rw [if_pos hrc]

theorem fetch_line {authenticated : Bool} (h : p.request_size = 0) {n : Int}
    {q : RedisParser Bytes} (hr : p.readInteger 42 = (1, n, q)) (req : RedisRequest) :
    p.fetch authenticated req =
      if !authenticated && 5 ≤ n then .ok (-2, q.startRequest n, [])
      else if n < 0 then .error .lengthError
      else (q.startRequest n).readRequest authenticated (List.replicate n.toNat []) := by
  rw [fetch, if_pos h, hr]
  rfl

/-- A request of no elements does not wait. -/
theorem readRequest_empty {authenticated : Bool} (h : p.left = 0) (req : RedisRequest)
    {r : Int × RedisParser Bytes × RedisRequest} (hr : p.readRequest authenticated req = .ok r) :
    r.1 ≠ 0 := by
  rw [readRequest_eq, readLeft_of h, readElements] at hr
  simp only at hr
  repeat' split at hr
  all_goals cases hr
  all_goals simp at *

/-- What `fetch` does with more input: if it waited, it goes on where it was. -/
theorem fetch_more (authenticated : Bool) (p : RedisParser Bytes) (req : RedisRequest)
    (c : Bytes) :
    (∃ p' req', p.fetch authenticated req = .ok (0, p', req') ∧
      ((p.more c).fetch authenticated req = (p'.more c).fetch authenticated req' ∨
        (p.more c).fetch authenticated req = .error .outOfBounds)) ∨
    (∀ r, p.fetch authenticated req = .ok r → r.1 ≠ 0) ∧
      (p.more c).fetch authenticated req = (p.fetch authenticated req).map (moreFetched c) := by
  by_cases h0 : p.request_size = 0
  · have h0c : (p.more c).request_size = 0 := h0
    rcases readInteger_status 42 p with ⟨hn, hr⟩ | ⟨hn, q, hr⟩ | ⟨hn, n, rest, hr, -⟩
    · -- The line has not ended.
      left
      have hq : ((p.appendInteger p.reader []).more c).request_size = 0 := h0
      refine ⟨_, [], fetch_stops h0 (Int.le_refl _) hr req, Or.inl ?_⟩
      rw [fetch, fetch, if_pos h0c, if_pos hq, readInteger_resume hn c]
    · -- The line is no size.
      right
      have hrc := @readInteger_more p 42 hn c
      rw [hr] at hrc
      rw [fetch_stops h0 (show (-1 : Int) ≤ 0 by decide) hr,
        fetch_stops h0c (show (-1 : Int) ≤ 0 by decide) hrc]
      constructor
      · intro r h
        cases h
        simp
      · rfl
    · -- The size has been read.
      have hrc := @readInteger_more p 42 hn c
      rw [hr] at hrc
      have h1 := @fetch_line p authenticated h0 n _ hr req
      have h2 := @fetch_line _ authenticated h0c n _ hrc req
      by_cases hbig : (!authenticated && decide (5 ≤ n)) = true
      · right
        rw [if_pos hbig] at h1 h2
        rw [h1, h2]
        constructor
        · intro r h
          cases h
          simp
        · rfl
      rw [if_neg hbig] at h1 h2
      by_cases hneg : n < 0
      · right
        rw [if_pos hneg] at h1 h2
        rw [h1, h2]
        constructor
        · intro r h
          cases h
        · rfl
      rw [if_neg hneg] at h1 h2
      generalize hq : (({ p with reader := rest, current_integer := [] } :
        RedisParser Bytes).startRequest n) = q at h1
      have hqn : q.request_size = n := by rw [← hq]; rfl
      have hqc : q.more c = ((({ p with reader := rest, current_integer := [] } :
        RedisParser Bytes).more c).startRequest n) := by rw [← hq]; rfl
      rw [← hqc] at h2
      rw [h1, h2]
      cases readRequest_more authenticated q (List.replicate n.toNat []) c with
      | settled hne h => exact Or.inr ⟨hne, h⟩
      | waiting p' req' hw hsize h =>
        left
        have hp' : (p'.more c).request_size ≠ 0 := by
          show p'.request_size ≠ 0
          rw [hsize, hqn]
          rintro rfl
          have hempty : q.left = 0 := by rw [← hq]; rfl
          exact readRequest_empty hempty _ hw rfl
        refine ⟨p', req', hw, ?_⟩
        rw [fetch_midway hp']
        exact h
  · have h0c : (p.more c).request_size ≠ 0 := h0
    rw [fetch_midway h0, fetch_midway h0c]
    cases readRequest_more authenticated p req c with
    | settled hne h => exact Or.inr ⟨hne, h⟩
    | waiting p' req' hw hsize h =>
      left
      have hp' : (p'.more c).request_size ≠ 0 := by
        show p'.request_size ≠ 0
        rw [hsize]
        exact h0
      refine ⟨p', req', hw, ?_⟩
      rw [fetch_midway hp']
      exact h

theorem readElements_reader_le {authenticated : Bool} {n : Nat} {rc : Int} {req req' : RedisRequest}
    {p' : RedisParser Bytes} (h : readElements authenticated n p req = .ok (rc, p', req')) :
    p'.reader.length ≤ p.reader.length := by
  induction n generalizing p req with
  | zero =>
    cases h
    exact Nat.le_refl _
  | succ n ih =>
    cases he : p.readElement authenticated with
    | error fault =>
      rw [readElements_error he] at h
      cases h
    | ok r =>
      obtain ⟨rc₁, str, p₁⟩ := r
      have hle := (readElement_samePlace he).reader_le
      by_cases hrc : rc₁ ≤ 0
      · rw [readElements_stops he hrc] at h
        cases h
        exact hle
      · rw [readElements_next he hrc] at h
        exact Nat.le_trans (ih h) hle

/-- A request that is read has been taken from the source. -/
theorem readRequest_done {authenticated : Bool} {rc : Int} {req req' : RedisRequest}
    {p' : RedisParser Bytes} (h : p.readRequest authenticated req = .ok (rc, p', req'))
    (hrc : 0 < rc) : p'.request_size = 0 ∧ p'.reader.length ≤ p.reader.length := by
  rw [readRequest_eq] at h
  cases hl : readLeft authenticated p req with
  | error fault =>
    rw [hl] at h
    cases h
  | ok r =>
    obtain ⟨rc₁, p₁, req₁⟩ := r
    have hle := readElements_reader_le hl
    rw [hl] at h
    dsimp only at h
    split at h
    · cases h
      omega
    · split at h
      · split at h
        · cases h
          omega
        · cases h
      · cases h
        exact ⟨rfl, hle⟩

/-- A parser in the middle of a request counts for one more. -/
def size (p : RedisParser Bytes) : Nat := p.reader.length + if p.request_size = 0 then 0 else 1

theorem fetch_size {authenticated : Bool} {rc : Int} {req req' : RedisRequest}
    {p' : RedisParser Bytes} (h : p.fetch authenticated req = .ok (rc, p', req')) (hrc : 0 < rc) :
    p'.size < p.size := by
  by_cases h0 : p.request_size = 0
  · rcases readInteger_status 42 p with ⟨hn, hr⟩ | ⟨hn, q, hr⟩ | ⟨hn, n, rest, hr, hlt, -⟩
    · rw [fetch_stops h0 (Int.le_refl _) hr] at h
      cases h
      omega
    · rw [fetch_stops h0 (show (-1 : Int) ≤ 0 by decide) hr] at h
      cases h
      omega
    · rw [fetch_line h0 hr] at h
      split at h
      · cases h
        omega
      · split at h
        · cases h
        · obtain ⟨h1, h2⟩ := readRequest_done h hrc
          have h3 : p'.reader.length ≤ rest.length := h2
          simp only [size, h1, h0, if_true]
          omega
  · rw [fetch_midway h0] at h
    obtain ⟨h1, h2⟩ := readRequest_done h hrc
    simp only [size, h1, h0, if_true, if_false]
    omega

end RedisParser

end quarkdb
