-- How a stream is cut into chunks does not show in the requests that the parser reads
-- from it, unless a size of -1 is met.
import QuarkDB.Resumption

namespace quarkdb

/-! ## Fetching from a link -/

/-- Why no more requests are fetched. -/
inductive Ending
  | error (status : Int)
  | fault (fault : FetchFault)
  deriving DecidableEq

section

variable {ρ : Type} [ByteSource ρ]

/-- The loop of `processRequests` over `fetch`. If the client is authenticated depends on
the requests so far. -/
def requestReader (authenticated : List RedisRequest → Bool) :
    Feeding.Reader (RedisParser ρ × RedisRequest) UInt8 RedisRequest Ending where
  turn requests s :=
    match s.1.fetch (authenticated requests) s.2 with
    | .error fault => .stop (.fault fault)
    | .ok (rc, p, req) =>
      if rc = 0 then .wait (p, req) else if rc < 0 then .stop (.error rc) else .item req (p, req)
  more chunk s := ({ s.1 with reader := ByteSource.deliver chunk s.1.reader }, s.2)
  size s := s.1.onBytes.size

/-- The requests that come out of a link, chunk by chunk, and why there are no more. -/
def fetchAll (authenticated : List RedisRequest → Bool) (reader : ρ) (chunks : List Bytes) :
    List RedisRequest × Option Ending :=
  ((requestReader authenticated).feedAll (RedisParser.onReader reader, []) chunks).outcome

/-- The parser can take what is still to come. -/
def Ready (fit : Bytes → ρ → Prop) (allowed : Int → Prop) (rest : Bytes)
    (s : RedisParser ρ × RedisRequest) : Prop :=
  s.1.Fit (fit rest) allowed rest ∧ (s.1.request_size ≠ 0 → s.1.Idle)

variable {fit : Bytes → ρ → Prop} {allowed : Int → Prop}
  (ht : ∀ rest, Transparent (fit rest) allowed) (hone : allowed 1)
  (hdeliver : ∀ {b rest r}, fit (b ++ rest) r → fit rest (ByteSource.deliver b r))

include ht hone hdeliver

/-- The blocks of the reader do not show. -/
theorem requestReader_mirrors (authenticated : List RedisRequest → Bool) :
    Feeding.Reader.Mirrors (requestReader (ρ := ρ) authenticated)
      (requestReader (ρ := Bytes) authenticated) (fun s => (s.1.onBytes, s.2))
      (Ready fit allowed) where
  turn_map := by
    intro rest s requests hs
    have heq := (RedisParser.fetch_onBytes (ht rest) hone (authenticated requests) s.2 hs.1 hs.2).1
    simp only [requestReader, heq]
    cases s.1.fetch (authenticated requests) s.2 with
    | error fault => rfl
    | ok r =>
      simp only [Except.map, RedisParser.fetchedOnBytes]
      repeat' split
      all_goals rfl
  wait_fine := by
    intro rest requests s s' hs h
    have hnext := (RedisParser.fetch_onBytes (ht rest) hone (authenticated requests) s.2 hs.1 hs.2).2
    simp only [requestReader] at h
    cases hf : s.1.fetch (authenticated requests) s.2 with
    | error fault => simp [hf] at h
    | ok r =>
      obtain ⟨rc, p, req⟩ := r
      simp only [hf] at h
      split at h
      · cases h
        exact hnext rc p req hf
      · split at h <;> cases h
  item_fine := by
    intro rest requests s r s' hs h
    have hnext := (RedisParser.fetch_onBytes (ht rest) hone (authenticated requests) s.2 hs.1 hs.2).2
    simp only [requestReader] at h
    cases hf : s.1.fetch (authenticated requests) s.2 with
    | error fault => simp [hf] at h
    | ok result =>
      obtain ⟨rc, p, req⟩ := result
      simp only [hf] at h
      split at h
      · cases h
      split at h
      · cases h
      · cases h
        exact hnext rc p _ hf
  more_map := by
    intro chunk s
    simp only [requestReader, RedisParser.onBytes, ByteSource.unread_deliver]
    rfl
  more_fine := by
    intro chunk rest s hs
    refine ⟨⟨hdeliver hs.1.reader, ?_, hs.1.size⟩, hs.2⟩
    have hl := hs.1.lines
    simp only [requestReader, ByteSource.unread_deliver]
    rwa [List.append_assoc]
  size_map _ := rfl

theorem fetchAll_onBytes (authenticated : List RedisRequest → Bool) {reader : ρ}
    {chunks : List Bytes}
    (hs : Ready fit allowed chunks.flatten (RedisParser.onReader reader, [])) :
    fetchAll authenticated (ByteSource.unread reader) chunks =
      fetchAll authenticated reader chunks := by
  have h := Feeding.Reader.feedAll_map (requestReader_mirrors ht hone hdeliver authenticated) hs
  have houtcome := congrArg Feeding.Progress.outcome h
  rw [Feeding.Progress.outcome_map] at houtcome
  exact houtcome

end

/-! ## A run that does not fail -/

/-- The parser is at a size of -1, and a byte is there. -/
def Ending.AtMinusOne (e : Ending) : Prop := e = .fault .outOfBounds

/-- The turn that belongs to a result of `fetch`. -/
def turnOf {ρ : Type} :
    Except FetchFault (Int × RedisParser ρ × RedisRequest) →
      Feeding.Turn (RedisParser ρ × RedisRequest) RedisRequest Ending
  | .error fault => .stop (.fault fault)
  | .ok (rc, p, req) =>
    if rc = 0 then .wait (p, req) else if rc < 0 then .stop (.error rc) else .item req (p, req)

theorem requestReader_turn {ρ : Type} [ByteSource ρ] (authenticated : List RedisRequest → Bool)
    (requests : List RedisRequest) (s : RedisParser ρ × RedisRequest) :
    (requestReader authenticated).turn requests s =
      turnOf (s.1.fetch (authenticated requests) s.2) := by
  simp only [requestReader, turnOf]

theorem requestReader_more (authenticated : List RedisRequest → Bool) (b : Bytes)
    (s : RedisParser Bytes × RedisRequest) :
    (requestReader authenticated).more b s = (s.1.more b, s.2) := rfl

/-- A turn that is not a wait is the same with more input. -/
theorem turn_more {authenticated : List RedisRequest → Bool} {requests : List RedisRequest}
    {s : RedisParser Bytes × RedisRequest} (b : Bytes)
    (h : ∀ s', (requestReader authenticated).turn requests s ≠ .wait s') :
    (requestReader authenticated).turn requests ((requestReader authenticated).more b s) =
      match (requestReader authenticated).turn requests s with
      | .item r s' => .item r ((requestReader authenticated).more b s')
      | .wait s' => .wait s'
      | .stop e => .stop e := by
  simp only [requestReader_turn, requestReader_more] at h ⊢
  rcases RedisParser.fetch_more (authenticated requests) s.1 s.2 b with ⟨p', req', hw, -⟩ | ⟨hne, hm⟩
  · rw [hw] at h
    exact absurd rfl (h (p', req'))
  · rw [hm]
    cases hf : s.1.fetch (authenticated requests) s.2 with
    | error fault => rfl
    | ok r =>
      obtain ⟨rc, p, req⟩ := r
      have hrc : rc ≠ 0 := hne _ hf
      simp only [Except.map, RedisParser.moreFetched, turnOf, if_neg hrc]
      split <;> rfl

theorem requestReader_remembers (authenticated : List RedisRequest → Bool) :
    (requestReader (ρ := Bytes) authenticated).Remembers Ending.AtMinusOne where
  item_lt := by
    intro requests s r s' h
    rw [requestReader_turn] at h
    cases hf : s.1.fetch (authenticated requests) s.2 with
    | error fault => simp [hf, turnOf] at h
    | ok result =>
      obtain ⟨rc, p, req⟩ := result
      simp only [hf, turnOf] at h
      repeat' split at h
      all_goals cases h
      exact RedisParser.fetch_size hf (by omega)
  more_nil := by
    intro s
    rw [requestReader_more, RedisParser.more_nil]
  more_more := by
    intro a b s
    simp [requestReader_more, RedisParser.more]
  item_more := by
    intro requests s r s' b h
    rw [turn_more b (by rw [h]; simp), h]
  stop_more := by
    intro requests s e b h
    rw [turn_more b (by rw [h]; simp), h]
  wait_more := by
    intro requests s s' b h
    simp only [requestReader_turn, requestReader_more] at h ⊢
    rcases RedisParser.fetch_more (authenticated requests) s.1 s.2 b with
      ⟨p', req', hw, hm⟩ | ⟨hne, -⟩
    · rw [hw] at h
      cases h
      rcases hm with hm | hm
      · rw [hm]
        exact Or.inl rfl
      · rw [hm]
        exact Or.inr ⟨_, rfl, rfl⟩
    · cases hf : s.1.fetch (authenticated requests) s.2 with
      | error fault => simp [hf, turnOf] at h
      | ok result =>
        obtain ⟨rc, p, req⟩ := result
        have hrc : rc ≠ 0 := hne _ hf
        simp only [hf, turnOf, if_neg hrc] at h
        split at h <;> cases h

/-! ## One byte at a time -/

namespace RedisParser

/-- The element that is being read needs more than `n` bytes. -/
def Wants (p : RedisParser Bytes) (n : Nat) : Prop :=
  p.element_size ≠ -1 ∧ (Endless p.element_size ∨ (n : Int) < p.element_size + 2)

/-- The parser has used up what it was given, or waits for the rest of an element. -/
structure Hungry (p : RedisParser Bytes) : Prop where
  range : -2 ^ 31 ≤ p.element_size ∧ p.element_size < 2 ^ 31
  left_pos : p.request_size ≠ 0 → 0 < p.left
  waits : p.reader = [] ∨ 0 < p.left ∧ p.Wants p.reader.length

/-- One byte has come to a hungry parser. -/
structure Fed (p : RedisParser Bytes) : Prop where
  range : -2 ^ 31 ≤ p.element_size ∧ p.element_size < 2 ^ 31
  few : p.reader.length ≤ 1 ∨ 0 < p.left ∧ p.Wants (p.reader.length - 1)

theorem minusOne_range : -2 ^ 31 ≤ (-1 : Int) ∧ (-1 : Int) < 2 ^ 31 := by decide

/-- What reading an element gives after one more byte. -/
def Careful (result : Except FetchFault (Int × Bytes × RedisParser Bytes)) : Prop :=
  match result with
  | .error fault => fault ≠ .outOfBounds
  | .ok (rc, _, p) => 0 ≤ rc → (-2 ^ 31 ≤ p.element_size ∧ p.element_size < 2 ^ 31) ∧
      (rc = 0 → p.reader = [] ∨ p.Wants p.reader.length) ∧ (0 < rc → p.reader = [])

theorem readSized_careful {p : RedisParser Bytes} (authenticated : Bool)
    (hr : -2 ^ 31 ≤ p.element_size ∧ p.element_size < 2 ^ 31)
    (hf : p.reader = [] ∨ p.element_size ≠ -1 ∧
      (p.reader.length ≤ 1 ∨ p.Wants (p.reader.length - 1))) :
    Careful (p.readSized authenticated) := by
  rw [readSized_eq authenticated hr.1 hr.2]
  by_cases hm : p.element_size = -1
  · have hnil : p.reader = [] := by
      rcases hf with h | ⟨h, -⟩
      · exact h
      · exact absurd hm h
    rw [if_pos hm, if_pos hnil]
    exact fun _ => ⟨hr, fun _ => Or.inl hnil, fun h => by omega⟩
  rw [if_neg hm]
  split
  · intro h
    omega
  · split
    · next hw => exact fun _ => ⟨hr, fun _ => Or.inr ⟨hm, hw⟩, fun h => by omega⟩
    · next hw =>
      simp only [Endless] at hw
      split
      · refine fun _ => ⟨hr, fun h => by omega, fun _ => ?_⟩
        apply List.drop_eq_nil_of_le
        rcases hf with h | ⟨-, h | ⟨-, h⟩⟩
        · simp [h]
        · omega
        · simp only [Endless] at h
          omega
      · intro h
        omega

theorem readElement_careful {p : RedisParser Bytes} (authenticated : Bool) (hf : p.Fed) :
    Careful (p.readElement authenticated) := by
  by_cases hs : p.element_size = -1
  · have hfew : p.reader.length ≤ 1 := by
      rcases hf.few with h | ⟨-, h, -⟩
      · exact h
      · exact absurd hs h
    rcases readInteger_status 36 p with ⟨hn, hr⟩ | ⟨hn, q, hr⟩ | ⟨hn, n, rest, hr, hlt, h1, h2⟩
    · rw [readElement_stops hs (Int.le_refl _) hr]
      exact fun _ => ⟨hf.range, fun _ => Or.inl rfl, fun h => by omega⟩
    · rw [readElement_stops hs (show (-1 : Int) ≤ 0 by decide) hr]
      intro h
      omega
    · have hrest : rest = [] := by
        apply List.length_eq_zero_iff.mp
        omega
      rw [readElement_line hs hr]
      exact readSized_careful authenticated ⟨h1, h2⟩ (Or.inl hrest)
  · rw [readElement_known hs]
    apply readSized_careful authenticated hf.range
    rcases hf.few with h | ⟨-, h⟩
    · exact Or.inr ⟨hs, Or.inl h⟩
    · exact Or.inr ⟨hs, Or.inr h⟩

/-- What fetching gives after one more byte. -/
def CarefulFetch (result : Except FetchFault (Int × RedisParser Bytes × RedisRequest)) : Prop :=
  match result with
  | .error fault => fault ≠ .outOfBounds
  | .ok (rc, p, _) => 0 ≤ rc → (-2 ^ 31 ≤ p.element_size ∧ p.element_size < 2 ^ 31) ∧
      (rc = 0 → 0 < p.left ∧ (p.reader = [] ∨ p.Wants p.reader.length)) ∧
      (0 < rc → p.reader = [])

theorem readLeft_careful {p : RedisParser Bytes} (authenticated : Bool) (req : RedisRequest)
    (hf : p.Fed) (h0 : p.left = 0 → p.reader = []) :
    CarefulFetch (readLeft authenticated p req) := by
  generalize hn : p.left = n
  induction n generalizing p req with
  | zero =>
    rw [readLeft_of hn]
    exact fun _ => ⟨hf.range, fun h => by omega, fun _ => h0 hn⟩
  | succ n ih =>
    have hc := readElement_careful authenticated hf
    rw [readLeft_of hn]
    cases he : p.readElement authenticated with
    | error fault =>
      rw [he] at hc
      rw [readElements_error he]
      exact hc
    | ok r =>
      obtain ⟨rc, str, p'⟩ := r
      have hp := readElement_samePlace he
      have hleft : p'.left = n + 1 := by
        simp only [left, hp.request_size, hp.current_element] at hn ⊢
        exact hn
      rw [he] at hc
      by_cases hrc : rc ≤ 0
      · rw [readElements_stops he hrc]
        intro h
        obtain ⟨h1, h2, h3⟩ := hc h
        exact ⟨h1, fun h => ⟨by omega, h2 h⟩, h3⟩
      · obtain ⟨h1, h2, h3⟩ := hc (by omega)
        have hnil : p'.reader = [] := h3 (by omega)
        have hnext := left_nextElement hleft
        rw [readElements_next he hrc, ← readLeft_of hnext]
        apply ih _ _ _ hnext
        · constructor
          · exact minusOne_range
          · left
            show p'.reader.length ≤ 1
            rw [hnil]
            simp
        · intro h
          exact hnil

/-- What a fetch gives after one more byte: it does not fail at a size of -1, and a parser
that goes on has used up its input, or is hungry. -/
def Tame (result : Except FetchFault (Int × RedisParser Bytes × RedisRequest)) : Prop :=
  match result with
  | .error fault => fault ≠ .outOfBounds
  | .ok (rc, p, _) => 0 ≤ rc → p.Hungry ∧ (0 < rc → p.reader = [])

theorem readRequest_tame {p : RedisParser Bytes} (authenticated : Bool) (req : RedisRequest)
    (hf : p.Fed) (h0 : p.left = 0 → p.reader = []) :
    Tame (p.readRequest authenticated req) := by
  have hc := readLeft_careful authenticated req hf h0
  rw [readRequest_eq]
  cases hl : readLeft authenticated p req with
  | error fault =>
    rw [hl] at hc
    exact hc
  | ok r =>
    obtain ⟨rc, p', req'⟩ := r
    rw [hl] at hc
    dsimp only
    split
    · intro h
      obtain ⟨h1, h2, -⟩ := hc h
      obtain ⟨h3, h4⟩ := h2 (by omega)
      refine ⟨⟨h1, fun _ => h3, ?_⟩, fun h => by omega⟩
      rcases h4 with h4 | h4
      · exact Or.inl h4
      · exact Or.inr ⟨h3, h4⟩
    · obtain ⟨h1, -, h3⟩ := hc (by omega)
      have hnil : p'.reader = [] := h3 (by omega)
      split
      · split
        · intro h
          omega
        · exact nofun
      · exact fun _ => ⟨⟨h1, fun h => absurd rfl h, Or.inl hnil⟩, fun _ => hnil⟩

theorem request_size_of_left {p : RedisParser Bytes} (h : 0 < p.left) : p.request_size ≠ 0 := by
  unfold left at h
  omega

theorem fetch_tame {p : RedisParser Bytes} (authenticated : Bool) (req : RedisRequest)
    (hf : p.Fed) (hl : p.request_size ≠ 0 → 0 < p.left) : Tame (p.fetch authenticated req) := by
  by_cases h0 : p.request_size = 0
  · have hfew : p.reader.length ≤ 1 := by
      rcases hf.few with h | ⟨h, -⟩
      · exact h
      · exact absurd h0 (request_size_of_left h)
    rcases readInteger_status 42 p with ⟨hn, hr⟩ | ⟨hn, q, hr⟩ | ⟨hn, n, rest, hr, hlt, -⟩
    · rw [fetch_stops h0 (Int.le_refl _) hr]
      exact fun _ => ⟨⟨hf.range, fun h => absurd h0 h, Or.inl rfl⟩, fun _ => rfl⟩
    · rw [fetch_stops h0 (show (-1 : Int) ≤ 0 by decide) hr]
      intro h
      omega
    · have hrest : rest = [] := by
        apply List.length_eq_zero_iff.mp
        omega
      rw [fetch_line h0 hr]
      split
      · intro h
        omega
      · split
        · exact nofun
        · apply readRequest_tame
          · constructor
            · exact minusOne_range
            · left
              show rest.length ≤ 1
              rw [hrest]
              simp
          · intro _
            exact hrest
  · rw [fetch_midway h0]
    apply readRequest_tame authenticated req hf
    intro h
    have := hl h0
    omega

/-- A hungry parser that gets one byte. -/
theorem Hungry.fed {p : RedisParser Bytes} (h : p.Hungry) (b : UInt8) : (p.more [b]).Fed := by
  refine ⟨h.range, ?_⟩
  rcases h.waits with hnil | ⟨hl, hw⟩
  · left
    simp [more, hnil]
  · right
    refine ⟨hl, hw.1, ?_⟩
    simpa [more] using hw.2

end RedisParser

/-- Given one byte at a time, the parser never is at a size of -1 with a byte there. -/
theorem run_tame (authenticated : List RedisRequest → Bool) (requests : List RedisRequest)
    (s : RedisParser Bytes × RedisRequest) (hf : s.1.Fed)
    (hl : s.1.request_size ≠ 0 → 0 < s.1.left) :
    Feeding.Reader.Clean Ending.AtMinusOne ((requestReader authenticated).run requests s) ∧
      ∀ s', ((requestReader authenticated).run requests s).now = .ok s' → s'.1.Hungry := by
  have hm := (requestReader_remembers authenticated).toShrinks
  induction requests, s using Feeding.Reader.run_induction hm with
  | step requests s ih =>
    have ht := RedisParser.fetch_tame (authenticated requests) s.2 hf hl
    rw [Feeding.Reader.run_eq hm, requestReader_turn]
    rw [requestReader_turn] at ih
    cases hs : s.1.fetch (authenticated requests) s.2 with
    | error fault =>
      rw [hs] at ht
      refine ⟨?_, nofun⟩
      rintro e he rfl
      cases he
      exact ht rfl
    | ok r =>
      obtain ⟨rc, p, req⟩ := r
      rw [hs] at ht ih
      simp only [turnOf] at ih ⊢
      by_cases h0 : rc = 0
      · simp only [if_pos h0]
        refine ⟨nofun, ?_⟩
        intro s' h
        cases h
        exact (ht (by omega)).1
      by_cases hneg : rc < 0
      · simp only [if_neg h0, if_pos hneg]
        refine ⟨?_, nofun⟩
        rintro e he rfl
        cases he
      simp only [if_neg h0, if_neg hneg] at ih ⊢
      obtain ⟨hh, hnil⟩ := ht (by omega)
      apply ih req (p, req) rfl
      · exact ⟨hh.range, Or.inl (by simp [hnil (by omega)])⟩
      · exact hh.left_pos

/-- A stream that comes one byte at a time. -/
theorem feedAll_bytes (authenticated : List RedisRequest → Bool) (s : Bytes) :
    let p := (requestReader authenticated).feedAll (RedisParser.onReader ([] : Bytes), [])
      (s.map fun b => [b])
    Feeding.Reader.Clean Ending.AtMinusOne p ∧ ∀ s', p.now = .ok s' → s'.1.Hungry := by
  induction s using List.reverseRecOn with
  | nil =>
    have hf : (RedisParser.onReader ([] : Bytes)).Fed :=
      ⟨⟨by decide, by decide⟩, Or.inl (by decide)⟩
    exact run_tame authenticated [] (RedisParser.onReader [], []) hf fun h => absurd rfl h
  | append_singleton s b ih =>
    obtain ⟨hc, hh⟩ := ih
    simp only [List.map_append, List.map_singleton, Feeding.Reader.feedAll, List.foldl_append,
      List.foldl_cons, List.foldl_nil] at hc hh ⊢
    generalize List.foldl (requestReader authenticated).feed
      ((requestReader authenticated).run [] (RedisParser.onReader ([] : Bytes), []))
      (s.map fun b => [b]) = p at hc hh ⊢
    cases p with
    | mk items now =>
      cases now with
      | error e => exact ⟨hc, fun s' h => by cases h⟩
      | ok s' =>
        have hhs := hh s' rfl
        apply run_tame
        · exact hhs.fed b
        · exact hhs.left_pos

/-! ## The size -1 -/

/-- The stream goes on, after a number of requests, with one that has an element of size -1
and at least one byte after that size. -/
inductive MeetsMinusOne (authenticated : List RedisRequest → Bool) :
    List RedisRequest → Bytes → Prop
  | here {requests : List RedisRequest} {s rest : Bytes} {n : Int}
      (hs : announced 42 s = .size n rest)
      (hn : 0 ≤ n ∧ (authenticated requests = true ∨ n < 5))
      (he : elements (authenticated requests) n.toNat rest = .minusOne) :
      MeetsMinusOne authenticated requests s
  | later {requests : List RedisRequest} {s rest : Bytes} {r : RedisRequest}
      (hr : reading (authenticated requests) s = .request r rest)
      (h : MeetsMinusOne authenticated (requests ++ [r]) rest) :
      MeetsMinusOne authenticated requests s

theorem reading_outOfBounds_iff (authenticated : Bool) (s : Bytes) :
    reading authenticated s = .fault .outOfBounds ↔
      ∃ n rest, announced 42 s = .size n rest ∧ (0 ≤ n ∧ (authenticated = true ∨ n < 5)) ∧
        elements authenticated n.toNat rest = .minusOne := by
  unfold reading
  cases ha : announced 42 s with
  | unfinished => simp
  | malformed => simp
  | size n rest =>
    dsimp only
    have hbig : (!authenticated && decide (5 ≤ n)) = true ↔ ¬ (authenticated = true ∨ n < 5) := by
      cases authenticated <;> simp
    split
    · next h => simp [hbig.mp h]
    · next h =>
      have h5 : authenticated = true ∨ n < 5 := by
        by_contra hc
        exact h (hbig.mpr hc)
      split
      · simp
        omega
      · next hneg =>
        cases he : elements authenticated n.toNat rest with
        | unfinished => simp [he]
        | rejected status => simp [he]
        | minusOne => simpa [he, h5] using hneg
        | done parts zeroSize rest' =>
          cases zeroSize with
          | false => simp [he]
          | true => cases hp : toPrintableString parts <;> simp [he, hp]

theorem meetsMinusOne_iff (authenticated : List RedisRequest → Bool)
    (requests : List RedisRequest) (s : Bytes) :
    MeetsMinusOne authenticated requests s ↔
      reading (authenticated requests) s = .fault .outOfBounds ∨
        ∃ r rest, reading (authenticated requests) s = .request r rest ∧
          MeetsMinusOne authenticated (requests ++ [r]) rest := by
  constructor
  · intro h
    cases h with
    | here hs hn he => exact Or.inl ((reading_outOfBounds_iff _ _).mpr ⟨_, _, hs, hn, he⟩)
    | later hr h => exact Or.inr ⟨_, _, hr, h⟩
  · rintro (h | ⟨r, rest, hr, h⟩)
    · obtain ⟨n, rest, hs, hn, he⟩ := (reading_outOfBounds_iff _ _).mp h
      exact .here hs hn he
    · exact .later hr h

/-- A parser that has the whole stream fails at a size of -1 exactly if the stream has one. -/
theorem clean_iff (authenticated : List RedisRequest → Bool) (requests : List RedisRequest)
    (s : RedisParser Bytes × RedisRequest) (hs : s.1.Fresh) :
    Feeding.Reader.Clean Ending.AtMinusOne ((requestReader authenticated).run requests s) ↔
      ¬ MeetsMinusOne authenticated requests s.1.reader := by
  have hm := (requestReader_remembers authenticated).toShrinks
  induction requests, s using Feeding.Reader.run_induction hm with
  | step requests s ih =>
    have hf := RedisParser.fetch_fresh (authenticated requests) hs s.2
    rw [Feeding.Reader.run_eq hm, requestReader_turn, meetsMinusOne_iff]
    rw [requestReader_turn] at ih
    cases hr : reading (authenticated requests) s.1.reader with
    | unfinished =>
      rw [hr] at hf
      obtain ⟨p', req', hf⟩ := hf
      simp [hf, turnOf, Feeding.Reader.Clean]
    | rejected status =>
      rw [hr] at hf
      obtain ⟨hneg, p', req', hf⟩ := hf
      have h0 : status ≠ 0 := by omega
      simp [hf, turnOf, Feeding.Reader.Clean, h0, hneg, Ending.AtMinusOne]
    | fault fault =>
      rw [hr] at hf
      have hf : s.1.fetch (authenticated requests) s.2 = .error fault := hf
      simp [hf, turnOf, Feeding.Reader.Clean, Ending.AtMinusOne]
    | request parts rest =>
      rw [hr] at hf
      obtain ⟨p', hf, hfresh, hrest⟩ := hf
      rw [hf] at ih ⊢
      have := ih parts (p', parts) rfl hfresh
      simp only [turnOf] at this ⊢
      rw [if_neg (by decide), if_neg (by decide)]
      simp only [this, hrest]
      simp

/-! ## The parser of a connection -/

theorem fetchAll_onLink (authenticated : List RedisRequest → Bool) {chunks : List Bytes}
    (hs : RedisParser.WithinInt chunks.flatten) :
    fetchAll authenticated RedisParser.onLink chunks =
      fetchAll authenticated ([] : Bytes) chunks := by
  symm
  rcases hs with hs | hs
  · have hready : Ready (fun rest (r : BufferedReader) => r.unread.length < 2 ^ 31 - rest.length)
        (· < 2 ^ 31) chunks.flatten (RedisParser.onReader RedisParser.onLink, []) := by
      refine ⟨⟨?_, fun line size _ _ => (toInt_range _).2, (toInt_range _).2⟩, fun _ => .inr rfl⟩
      show 0 < 2 ^ 31 - chunks.flatten.length
      omega
    refine fetchAll_onBytes (fun rest => BufferedReader.transparent_short (Nat.sub_le _ _))
      (by decide) ?_ authenticated hready
    intro b rest r h
    have hu := congrArg List.length (ByteSource.unread_deliver b r)
    change (ByteSource.deliver b r).unread.length = (r.unread ++ b).length at hu
    rw [List.length_append] at h hu
    omega
  · have hready : Ready (fun _ (r : BufferedReader) => r.buffered.length < 2 ^ 31)
        BufferedReader.Askable chunks.flatten (RedisParser.onReader RedisParser.onLink, []) :=
      ⟨⟨show 0 < 2 ^ 31 by decide, hs, ⟨by decide, by decide⟩⟩, fun _ => .inr rfl⟩
    exact fetchAll_onBytes (fun _ => BufferedReader.transparent_small) ⟨by decide, by decide⟩
      (fun h => h) authenticated hready

/-- Before anything has come the parser waits. -/
theorem run_nothing (authenticated : List RedisRequest → Bool) :
    (requestReader authenticated).run [] (RedisParser.onReader ([] : Bytes), []) =
      ⟨[], .ok (RedisParser.onReader [], [])⟩ := rfl

theorem not_clean
    {p : Feeding.Progress (RedisParser Bytes × RedisRequest) RedisRequest Ending}
    (h : ¬ Feeding.Reader.Clean Ending.AtMinusOne p) :
    p.outcome.2 = some (.fault .outOfBounds) := by
  cases p with
  | mk items now =>
    cases now with
    | ok s => exact absurd nofun h
    | error e =>
      by_contra hne
      apply h
      rintro e' he rfl
      cases he
      exact hne rfl

/-- Of a stream whose bytes an `int` can count, every way to cut it gives the same requests and
the same error, and the stream as a whole gives them too, exactly if the stream has no element
of size -1 with a byte after the size. -/
theorem chunks_do_not_show_iff (authenticated : List RedisRequest → Bool) {s : Bytes}
    (hs : RedisParser.WithinInt s) :
    (∀ chunks chunks', chunks.flatten = s → chunks'.flatten = s →
      fetchAll authenticated RedisParser.onLink chunks =
        fetchAll authenticated RedisParser.onLink chunks') ↔
      ¬ MeetsMinusOne authenticated [] s := by
  have hfresh : ((RedisParser.onReader ([] : Bytes)).more s).Fresh := ⟨rfl, rfl, rfl⟩
  have hiff := clean_iff authenticated [] ((RedisParser.onReader ([] : Bytes)).more s, []) hfresh
  have hlink : ∀ chunks : List Bytes, chunks.flatten = s →
      fetchAll authenticated RedisParser.onLink chunks =
        fetchAll authenticated ([] : Bytes) chunks := by
    intro chunks hchunks
    exact fetchAll_onLink authenticated (by rwa [hchunks])
  constructor
  · intro h hmeets
    -- The whole stream at once against one byte after the other.
    have hwhole : (requestReader authenticated).feedAll (RedisParser.onReader [], []) [s] =
        (requestReader authenticated).run [] ((RedisParser.onReader ([] : Bytes)).more s, []) := by
      rw [Feeding.Reader.feedAll, run_nothing]
      rfl
    have hbad := not_clean (fun hc => hiff.mp hc hmeets)
    have hone : [s].flatten = s := by simp
    have hbytes : (s.map fun b => [b]).flatten = s := by
      rw [← List.flatMap_def, List.flatMap_singleton']
    have heq := h [s] (s.map fun b => [b]) hone hbytes
    rw [hlink _ hone, hlink _ hbytes, fetchAll, hwhole] at heq
    rw [heq, fetchAll] at hbad
    obtain ⟨hc, -⟩ := feedAll_bytes authenticated s
    cases hp : (requestReader authenticated).feedAll (RedisParser.onReader ([] : Bytes), [])
      (s.map fun b => [b]) with
    | mk items now =>
      rw [hp] at hc hbad
      cases now with
      | ok s' => cases hbad
      | error e =>
        cases hbad
        exact hc _ rfl rfl
  · intro hnot
    have hall : ∀ chunks : List Bytes, chunks.flatten = s →
        (requestReader authenticated).feedAll (RedisParser.onReader [], []) chunks =
          (requestReader authenticated).run []
            ((RedisParser.onReader ([] : Bytes)).more s, []) := by
      intro chunks hchunks
      have hm := requestReader_remembers authenticated
      have := Feeding.Reader.feedAll_eq hm (RedisParser.onReader ([] : Bytes), []) chunks
      rw [hchunks] at this
      exact this (hiff.mpr hnot)
    intro chunks chunks' h1 h2
    rw [hlink _ h1, hlink _ h2, fetchAll, fetchAll, hall chunks h1, hall chunks' h2]

/-- Two requests, cut in any two ways. -/
theorem two_requests_in_chunks :
    let s := ascii "*2\r\n$3\r\nGET\r\n$1\r\nx\r\n*1\r\n$4\r\nPING\r\n"
    RedisParser.WithinInt s ∧ ∀ chunks chunks', chunks.flatten = s → chunks'.flatten = s →
      fetchAll (fun _ => true) RedisParser.onLink chunks =
        fetchAll (fun _ => true) RedisParser.onLink chunks' := by
  have hs : RedisParser.WithinInt (ascii "*2\r\n$3\r\nGET\r\n$1\r\nx\r\n*1\r\n$4\r\nPING\r\n") :=
    .inl (by decide)
  refine ⟨hs, (chunks_do_not_show_iff _ hs).mpr ?_⟩
  have h1 : reading true (ascii "*2\r\n$3\r\nGET\r\n$1\r\nx\r\n*1\r\n$4\r\nPING\r\n") =
      .request [ascii "GET", ascii "x"] (ascii "*1\r\n$4\r\nPING\r\n") := by decide +kernel
  have h2 : reading true (ascii "*1\r\n$4\r\nPING\r\n") = .request [ascii "PING"] [] := by
    decide +kernel
  have h3 : reading true [] = .unfinished := by decide +kernel
  rw [meetsMinusOne_iff, h1]
  rintro (h | ⟨r, rest, h, hlater⟩)
  · cases h
  cases h
  rw [meetsMinusOne_iff, h2] at hlater
  rcases hlater with h | ⟨r, rest, h, hlater⟩
  · cases h
  cases h
  rw [meetsMinusOne_iff, h3] at hlater
  rcases hlater with h | ⟨r, rest, h, -⟩
  · cases h
  · cases h

/-- After the size -1 and nothing else the parser waits for a size; with a byte there it
reads before the start of a string of one byte. -/
theorem a_size_of_minus_one_shows :
    let size := ascii "*1\r\n$-1\r\n"
    let element := ascii "$3\r\nabc\r\n"
    fetchAll (fun _ => true) RedisParser.onLink [size, element] = ([[ascii "abc"]], none) ∧
      fetchAll (fun _ => true) RedisParser.onLink [size ++ element] =
        ([], some (.fault .outOfBounds)) := by
  intro size element
  rw [fetchAll_onLink _ (.inl (by decide)), fetchAll_onLink _ (.inl (by decide))]
  decide +kernel

end quarkdb
