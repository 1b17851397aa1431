-- Readers that are fed piece by piece: a reader takes items from what it has, and
-- waits when that is not enough. If a reader forgets nothing while it waits, then
-- how its input was cut does not show.
import Mathlib

namespace Feeding

/-- What a reader does in one turn: it waits for more, hands out an item, or stops. -/
inductive Turn (σ ρ ε : Type)
  | wait (s : σ)
  | item (r : ρ) (s : σ)
  | stop (e : ε)
  deriving DecidableEq

namespace Turn

variable {σ τ ρ ε : Type}

def map (f : σ → τ) : Turn σ ρ ε → Turn τ ρ ε
  | wait s => wait (f s)
  | item r s => item r (f s)
  | stop e => stop e

end Turn

/-- What was handed out, and the reader or why it stopped. -/
structure Progress (σ ρ ε : Type) where
  items : List ρ
  now : Except ε σ
  deriving DecidableEq

namespace Progress

variable {σ τ ρ ε : Type}

def map (f : σ → τ) (p : Progress σ ρ ε) : Progress τ ρ ε :=
  { items := p.items, now := p.now.map f }

/-- What can be seen from outside. -/
def outcome (p : Progress σ ρ ε) : List ρ × Option ε :=
  (p.items, match p.now with
    | .ok _ => none
    | .error e => some e)

@[simp] theorem outcome_map (f : σ → τ) (p : Progress σ ρ ε) : (p.map f).outcome = p.outcome := by
  cases p with
  | mk items now => cases now <;> rfl

end Progress

/-- A reader: a turn may depend on the items handed out so far. The size bounds how
many items it can still hand out. -/
structure Reader (σ β ρ ε : Type) where
  turn : List ρ → σ → Turn σ ρ ε
  more : List β → σ → σ
  size : σ → Nat

namespace Reader

variable {σ τ β ρ ε : Type}

/-- Turn after turn, until it waits or stops. -/
def drain (m : Reader σ β ρ ε) : Nat → List ρ → σ → Progress σ ρ ε
  | 0, items, s => ⟨items, .ok s⟩
  | fuel + 1, items, s =>
    match m.turn items s with
    | .wait s' => ⟨items, .ok s'⟩
    | .item r s' => m.drain fuel (items ++ [r]) s'
    | .stop e => ⟨items, .error e⟩

def run (m : Reader σ β ρ ε) (items : List ρ) (s : σ) : Progress σ ρ ε :=
  m.drain (m.size s + 1) items s

/-- One more piece arrives. -/
def feed (m : Reader σ β ρ ε) (p : Progress σ ρ ε) (piece : List β) : Progress σ ρ ε :=
  match p.now with
  | .ok s => m.run p.items (m.more piece s)
  | .error _ => p

def feedAll (m : Reader σ β ρ ε) (s : σ) (pieces : List (List β)) : Progress σ ρ ε :=
  pieces.foldl m.feed (m.run [] s)

/-- Handing out an item makes the reader smaller. -/
structure Shrinks (m : Reader σ β ρ ε) : Prop where
  item_lt : ∀ {items s r s'}, m.turn items s = .item r s' → m.size s' < m.size s

/-- What a reader with more input does is what it would have done after a wait, except
that it may stop for a reason that is `bad`. -/
structure Remembers (m : Reader σ β ρ ε) (bad : ε → Prop) : Prop extends Shrinks m where
  more_nil : ∀ s, m.more [] s = s
  more_more : ∀ a b s, m.more b (m.more a s) = m.more (a ++ b) s
  item_more : ∀ {items s r s'} b, m.turn items s = .item r s' →
    m.turn items (m.more b s) = .item r (m.more b s')
  stop_more : ∀ {items s e} b, m.turn items s = .stop e → m.turn items (m.more b s) = .stop e
  wait_more : ∀ {items s s'} b, m.turn items s = .wait s' →
    m.turn items (m.more b s) = m.turn items (m.more b s') ∨
      ∃ e, bad e ∧ m.turn items (m.more b s) = .stop e

/-- The reader did not stop for a bad reason. -/
def Clean (bad : ε → Prop) (p : Progress σ ρ ε) : Prop := ∀ e, p.now = .error e → ¬ bad e

variable {m : Reader σ β ρ ε} {bad : ε → Prop}

/-- Fuel beyond the size is not used. -/
theorem drain_eq (hm : m.Shrinks) {fuel fuel' : Nat} {items : List ρ} {s : σ}
    (h : m.size s < fuel) (h' : m.size s < fuel') :
    m.drain fuel items s = m.drain fuel' items s := by
  induction fuel generalizing fuel' items s with
  | zero => omega
  | succ fuel ih =>
    cases fuel' with
    | zero => omega
    | succ fuel' =>
      simp only [drain]
      cases ht : m.turn items s with
      | wait s' => rfl
      | stop e => rfl
      | item r s' =>
        have := hm.item_lt ht
        exact ih (by omega) (by omega)

/-- The run, turn by turn. -/
theorem run_eq (hm : m.Shrinks) (items : List ρ) (s : σ) :
    m.run items s =
      match m.turn items s with
      | .wait s' => ⟨items, .ok s'⟩
      | .item r s' => m.run (items ++ [r]) s'
      | .stop e => ⟨items, .error e⟩ := by
  rw [run, drain]
  cases ht : m.turn items s with
  | wait s' => rfl
  | stop e => rfl
  | item r s' =>
    have := hm.item_lt ht
    exact drain_eq hm (by omega) (by omega)

/-- Induction along a run. -/
theorem run_induction (hm : m.Shrinks) {motive : List ρ → σ → Prop}
    (step : ∀ items s, (∀ r s', m.turn items s = .item r s' → motive (items ++ [r]) s') →
      motive items s) (items : List ρ) (s : σ) : motive items s := by
  generalize hn : m.size s = n
  induction n using Nat.strongRecOn generalizing items s with
  | ind n ih =>
    apply step
    intro r s' ht
    have := hm.item_lt ht
    exact ih (m.size s') (by omega) (items ++ [r]) s' rfl

/-- A wait in between does not show. -/
theorem feed_run (hm : m.Remembers bad) (items : List ρ) (s : σ) (b : List β)
    (hc : Clean bad (m.run items (m.more b s))) :
    m.feed (m.run items s) b = m.run items (m.more b s) := by
  induction items, s using run_induction hm.toShrinks with
  | step items s ih =>
    rw [run_eq hm.toShrinks items (m.more b s)] at hc ⊢
    rw [run_eq hm.toShrinks items s]
    cases ht : m.turn items s with
    | stop e => rw [hm.stop_more b ht]; rfl
    | item r s' =>
      rw [hm.item_more b ht] at hc ⊢
      exact ih r s' ht hc
    | wait s' =>
      rcases hm.wait_more b ht with hw | ⟨e, hbad, hw⟩
      · rw [hw]
        exact run_eq hm.toShrinks items (m.more b s')
      · rw [hw] at hc
        exact absurd hbad (hc e rfl)

/-- A clean run on more input was clean on less. -/
theorem clean_of_more (hm : m.Remembers bad) (items : List ρ) (s : σ) (b : List β)
    (hc : Clean bad (m.run items (m.more b s))) : Clean bad (m.run items s) := by
  intro e he
  have := feed_run hm items s b hc
  rw [feed, he] at this
  apply hc e
  rw [← this, he]

/-- However the input is cut, the reader makes of it what it makes of the whole. -/
theorem feedAll_eq (hm : m.Remembers bad) (s : σ) (pieces : List (List β))
    (hc : Clean bad (m.run [] (m.more pieces.flatten s))) :
    m.feedAll s pieces = m.run [] (m.more pieces.flatten s) := by
  induction pieces using List.reverseRecOn with
  | nil => rw [feedAll, List.flatten_nil, hm.more_nil]; rfl
  | append_singleton pieces piece ih =>
    rw [List.flatten_append, List.flatten_singleton, ← hm.more_more] at hc ⊢
    rw [feedAll, List.foldl_append, List.foldl_cons, List.foldl_nil, ← feedAll,
      ih (clean_of_more hm _ _ _ hc), feed_run hm _ _ _ hc]

/-! ## Two readers in step -/

/-- One reader does what the other does on the image of its state, as long as the state is fine
for what is still to come. -/
structure Mirrors (m : Reader σ β ρ ε) (m' : Reader τ β ρ ε) (f : σ → τ)
    (Fine : List β → σ → Prop) : Prop where
  turn_map : ∀ {rest s} items, Fine rest s → m'.turn items (f s) = (m.turn items s).map f
  wait_fine : ∀ {rest items s s'}, Fine rest s → m.turn items s = .wait s' → Fine rest s'
  item_fine : ∀ {rest items s r s'}, Fine rest s → m.turn items s = .item r s' → Fine rest s'
  more_map : ∀ b s, m'.more b (f s) = f (m.more b s)
  more_fine : ∀ {b rest s}, Fine (b ++ rest) s → Fine rest (m.more b s)
  size_map : ∀ s, m'.size (f s) = m.size s

variable {m' : Reader τ β ρ ε} {f : σ → τ} {Fine : List β → σ → Prop} {rest : List β}

theorem drain_map (hm : Mirrors m m' f Fine) (fuel : Nat) (items : List ρ) {s : σ}
    (hs : Fine rest s) : m'.drain fuel items (f s) = (m.drain fuel items s).map f := by
  induction fuel generalizing items s with
  | zero => rfl
  | succ fuel ih =>
    rw [drain, drain, hm.turn_map items hs]
    cases ht : m.turn items s with
    | wait s' => rfl
    | stop e => rfl
    | item r s' => exact ih (items ++ [r]) (hm.item_fine hs ht)

theorem drain_fine (hm : Mirrors m m' f Fine) {fuel : Nat} {items : List ρ} {s s' : σ}
    (hs : Fine rest s) (h : (m.drain fuel items s).now = .ok s') : Fine rest s' := by
  induction fuel generalizing items s with
  | zero =>
    cases h
    exact hs
  | succ fuel ih =>
    rw [drain] at h
    cases ht : m.turn items s with
    | wait s₁ =>
      rw [ht] at h
      cases h
      exact hm.wait_fine hs ht
    | stop e =>
      rw [ht] at h
      cases h
    | item r s₁ =>
      rw [ht] at h
      exact ih (hm.item_fine hs ht) h

theorem run_map (hm : Mirrors m m' f Fine) (items : List ρ) {s : σ} (hs : Fine rest s) :
    m'.run items (f s) = (m.run items s).map f := by
  rw [run, run, hm.size_map, drain_map hm _ _ hs]

/-- The reader has stopped, or its state is fine. -/
def FineNow (Fine : List β → σ → Prop) (rest : List β) (p : Progress σ ρ ε) : Prop :=
  ∀ s, p.now = .ok s → Fine rest s

theorem run_fine (hm : Mirrors m m' f Fine) (items : List ρ) {s : σ} (hs : Fine rest s) :
    FineNow Fine rest (m.run items s) :=
  fun _ h => drain_fine hm hs h

theorem feed_map (hm : Mirrors m m' f Fine) {b : List β} {p : Progress σ ρ ε}
    (hp : FineNow Fine (b ++ rest) p) : m'.feed (p.map f) b = (m.feed p b).map f := by
  cases p with
  | mk items now =>
    cases now with
    | error e => rfl
    | ok s =>
      simp only [feed, Progress.map, Except.map, hm.more_map]
      exact run_map hm _ (hm.more_fine (hp s rfl))

theorem feed_fine (hm : Mirrors m m' f Fine) {b : List β} {p : Progress σ ρ ε}
    (hp : FineNow Fine (b ++ rest) p) : FineNow Fine rest (m.feed p b) := by
  cases p with
  | mk items now =>
    cases now with
    | error e => exact fun s h => by cases h
    | ok s => exact run_fine hm items (hm.more_fine (hp s rfl))

theorem feedAll_map (hm : Mirrors m m' f Fine) {s : σ} {pieces : List (List β)}
    (hs : Fine pieces.flatten s) : m'.feedAll (f s) pieces = (m.feedAll s pieces).map f := by
  rw [feedAll, feedAll, run_map hm [] hs]
  have hp := run_fine hm [] hs
  generalize m.run [] s = p at hp ⊢
  clear hs
  induction pieces generalizing p with
  | nil => rfl
  | cons piece pieces ih =>
    rw [List.flatten_cons] at hp
    rw [List.foldl_cons, List.foldl_cons, feed_map hm hp]
    exact ih _ (feed_fine hm hp)

end Reader

end Feeding
