-- Going over all pairs of a multi-map, in stages of keys and of values, while other threads
-- insert and erase. What stays in the map is visited once; but the loop comes to its end only
-- if no key that was staged has vanished when it is looked up.
import QuarkDB.Publisher

namespace quarkdb

variable {Key Value : Type} [LinearOrder Key] [LinearOrder Value]

/-- What another thread does to the map. -/
inductive MapCall (Key Value : Type)
  | insert (key : Key) (value : Value)
  | erase (key : Key) (value : Value)

/-- Where a loop over a `FullIterator` stands, named after what comes next. -/
inductive FullIterator (Key Value : Type)
  | getKeyIterator
  /-- The loop of `findValidMatchIter`. -/
  | findMatching (key : Key) (keys : List Key)
  /-- The body of the loop, which may erase the pair that it is at. -/
  | body (key : Key) (keys : List Key) (front : Value) (rest : List Value)
  | next (key : Key) (keys : List Key) (front : Value) (rest : List Value)
  | skipKey (key : Key) (keys : List Key)
  | invalid
  deriving DecidableEq

/-- A map, and a loop over it that has visited these pairs. -/
structure MapIteration (Key Value : Type) where
  map : ThreadSafeMultiMap Key Value
  iter : FullIterator Key Value
  visited : List (Key × Value)

namespace ThreadSafeMultiMap

def call (m : ThreadSafeMultiMap Key Value) : MapCall Key Value → ThreadSafeMultiMap Key Value
  | .insert key value => (m.insert key value).2
  | .erase key value => (m.erase key value).2

end ThreadSafeMultiMap

namespace MapIteration

/-- The test at the head of `findValidMatchIter`. -/
def findValidMatchIter : Stage Key → FullIterator Key Value
  | .invalid => .invalid
  | .valid key keys => .findMatching key keys

/-- One step of the loop, with at most one lock taken. -/
def step (keyStage valueStage : Nat) (erases : Bool) (it : MapIteration Key Value) :
    MapIteration Key Value :=
  match it.iter with
  | .getKeyIterator =>
    { it with iter := findValidMatchIter (Stage.populateStage it.map.keys keyStage none) }
  | .findMatching key keys =>
    match Stage.populateStage (it.map.values key) valueStage none with
    -- The loop looks at the same key again.
    | .invalid => it
    | .valid front rest => { it with iter := .body key keys front rest }
  | .body key keys front rest =>
    { map := if erases then (it.map.erase key front).2 else it.map
      iter := .next key keys front rest
      visited := it.visited ++ [(key, front)] }
  | .next key keys front rest =>
    match (Stage.valid front rest).next (it.map.values key) valueStage with
    | .invalid => { it with iter := .skipKey key keys }
    | .valid front rest => { it with iter := .body key keys front rest }
  | .skipKey key keys =>
    { it with iter := findValidMatchIter ((Stage.valid key keys).next it.map.keys keyStage) }
  | .invalid => it

/-- The calls of other threads between two steps. -/
def meanwhile (it : MapIteration Key Value) (calls : List (MapCall Key Value)) :
    MapIteration Key Value :=
  { it with map := calls.foldl ThreadSafeMultiMap.call it.map }

/-- The loop after so many steps: before each of them come the calls of the others, and in each
of them the pair at hand is erased or not. -/
def run (keyStage valueStage : Nat) (m : ThreadSafeMultiMap Key Value)
    (others : Nat → List (MapCall Key Value)) (erases : Nat → Bool) : Nat → MapIteration Key Value
  | 0 => { map := m, iter := .getKeyIterator, visited := [] }
  | n + 1 =>
    ((run keyStage valueStage m others erases n).meanwhile (others n)).step keyStage valueStage
      (erases n)

/-! ## What is visited -/

/-- Both stages go upwards. -/
def Sorted : FullIterator Key Value → Prop
  | .findMatching key keys => (Stage.valid key keys).Sorted
  | .body key keys front rest =>
    (Stage.valid key keys).Sorted ∧ (Stage.valid front rest).Sorted
  | .next key keys front rest =>
    (Stage.valid key keys).Sorted ∧ (Stage.valid front rest).Sorted
  | .skipKey key keys => (Stage.valid key keys).Sorted
  | _ => True

/-- The pair stands before the iterator. -/
def Passed (e : Key × Value) : FullIterator Key Value → Prop
  | .getKeyIterator => False
  | .findMatching key _ => e.1 < key
  | .body key _ front _ => e.1 < key ∨ e.1 = key ∧ e.2 < front
  | .next key _ front _ => e.1 < key ∨ e.1 = key ∧ e.2 ≤ front
  | .skipKey key _ => e.1 ≤ key
  | .invalid => True

/-- The iterator still comes to the pair, if it stays in the map. -/
def Ahead (e : Key × Value) : FullIterator Key Value → Prop
  | .getKeyIterator => True
  | .findMatching key keys => (Stage.valid key keys).Ahead e.1
  | .body key keys front rest =>
    e.1 = key ∧ (Stage.valid front rest).Ahead e.2 ∨ e.1 ≠ key ∧ (Stage.valid key keys).Ahead e.1
  | .next key keys front rest =>
    e.1 = key ∧ e.2 ≠ front ∧ (Stage.valid front rest).Ahead e.2 ∨
      e.1 ≠ key ∧ (Stage.valid key keys).Ahead e.1
  | .skipKey key keys => e.1 ≠ key ∧ (Stage.valid key keys).Ahead e.1
  | .invalid => False

section

variable {keyStage valueStage : Nat} {erases : Bool} {it : MapIteration Key Value} {e : Key × Value}

theorem sorted_findValidMatchIter {s : Stage Key} (h : s.Sorted) :
    Sorted (findValidMatchIter s : FullIterator Key Value) := by
  cases s with
  | invalid => trivial
  | valid key keys => exact h

theorem passed_findValidMatchIter {s : Stage Key} (h : s.Passed e.1) :
    Passed e (findValidMatchIter s) := by
  cases s with
  | invalid => trivial
  | valid key keys => exact h

theorem ahead_findValidMatchIter {s : Stage Key} (h : s.Ahead e.1) :
    Ahead e (findValidMatchIter s) := by
  cases s with
  | invalid => exact h
  | valid key keys => exact h

theorem sorted_step (h : Sorted it.iter) : Sorted (it.step keyStage valueStage erases).iter := by
  obtain ⟨m, iter, visited⟩ := it
  unfold step
  cases iter with
  | getKeyIterator =>
    exact sorted_findValidMatchIter (Stage.sorted_populateStage m.nodup_keys keyStage none)
  | findMatching key keys =>
    dsimp only
    have hs := Stage.sorted_populateStage (m.nodup_values key) valueStage none
    generalize Stage.populateStage (m.values key) valueStage none = s at hs
    cases s with
    | invalid => exact h
    | valid front rest => exact ⟨h, hs⟩
  | body key keys front rest => exact h
  | next key keys front rest =>
    dsimp only
    have hs := Stage.sorted_next (m.nodup_values key) valueStage h.2
    generalize (Stage.valid front rest).next (m.values key) valueStage = s at hs
    cases s with
    | invalid => exact h.1
    | valid front rest => exact ⟨h.1, hs⟩
  | skipKey key keys =>
    exact sorted_findValidMatchIter (Stage.sorted_next m.nodup_keys keyStage h)
  | invalid => trivial

theorem passed_step (hs : Sorted it.iter) (h : Passed e it.iter) :
    Passed e (it.step keyStage valueStage erases).iter := by
  obtain ⟨m, iter, visited⟩ := it
  unfold step
  cases iter with
  | getKeyIterator => cases h
  | findMatching key keys =>
    dsimp only
    cases Stage.populateStage (m.values key) valueStage none with
    | invalid => exact h
    | valid front rest => exact .inl h
  | body key keys front rest => exact h.imp_right fun h => ⟨h.1, le_of_lt h.2⟩
  | next key keys front rest =>
    dsimp only
    have hp : e.2 ≤ front → ((Stage.valid front rest).next (m.values key) valueStage).Passed e.2 :=
      Stage.passed_next hs.2
    generalize (Stage.valid front rest).next (m.values key) valueStage = s at hp
    cases s with
    | invalid => exact h.elim le_of_lt fun h => le_of_eq h.1
    | valid front rest => exact h.imp_right fun h => ⟨h.1, hp h.2⟩
  | skipKey key keys => exact passed_findValidMatchIter (Stage.passed_next hs h)
  | invalid => trivial

/-- The iterator comes to what is ahead, or it stays ahead. -/
theorem ahead_step (hk : 0 < keyStage) (hv : 0 < valueStage) (hm : e ∈ it.map.contents)
    (h : Ahead e it.iter) :
    e ∈ (it.step keyStage valueStage erases).visited ∨
      e ∈ (it.step keyStage valueStage erases).map.contents ∧
        Ahead e (it.step keyStage valueStage erases).iter := by
  obtain ⟨m, iter, visited⟩ := it
  have hkey : e.1 ∈ m.keys := ThreadSafeMultiMap.mem_keys.mpr ⟨e.2, hm⟩
  have hvalue : e.2 ∈ m.values e.1 := ThreadSafeMultiMap.mem_values.mpr hm
  unfold step
  cases iter with
  | getKeyIterator =>
    exact .inr ⟨hm, ahead_findValidMatchIter
      (Stage.ahead_populateStage m.nodup_keys hk hkey (by simp))⟩
  | findMatching key keys =>
    dsimp only
    have ha : e.1 = key → (Stage.populateStage (m.values key) valueStage none).Ahead e.2 := by
      rintro rfl
      exact Stage.ahead_populateStage (m.nodup_values _) hv hvalue (by simp)
    generalize Stage.populateStage (m.values key) valueStage none = s at ha
    cases s with
    | invalid => exact .inr ⟨hm, h⟩
    | valid front rest =>
      by_cases he : e.1 = key
      · exact .inr ⟨hm, .inl ⟨he, ha he⟩⟩
      · exact .inr ⟨hm, .inr ⟨he, h⟩⟩
  | body key keys front rest =>
    by_cases he : e = (key, front)
    · exact .inl (List.mem_append_right visited (List.mem_singleton.mpr he))
    · refine .inr ⟨?_, h.imp_left fun h => ⟨h.1, fun hf => he (Prod.ext h.1 hf), h.2⟩⟩
      cases erases with
      | false => exact hm
      | true => exact ThreadSafeMultiMap.mem_erase.mpr ⟨he, hm⟩
  | next key keys front rest =>
    dsimp only
    have ha : e.1 = key → e.2 ≠ front → (Stage.valid front rest).Ahead e.2 →
        ((Stage.valid front rest).next (m.values key) valueStage).Ahead e.2 := by
      rintro rfl
      exact Stage.ahead_next (m.nodup_values _) hv hvalue
    generalize (Stage.valid front rest).next (m.values key) valueStage = s at ha
    rcases h with ⟨he, hne, h⟩ | ⟨he, h⟩
    · cases s with
      | invalid => exact absurd (ha he hne h) id
      | valid front rest => exact .inr ⟨hm, .inl ⟨he, ha he hne h⟩⟩
    · cases s with
      | invalid => exact .inr ⟨hm, he, h⟩
      | valid front rest => exact .inr ⟨hm, .inr ⟨he, h⟩⟩
  | skipKey key keys =>
    exact .inr ⟨hm, ahead_findValidMatchIter (Stage.ahead_next m.nodup_keys hk hkey h.1 h.2)⟩
  | invalid => exact absurd h id

theorem visited_step (h : e ∈ (it.step keyStage valueStage erases).visited) :
    e ∈ it.visited ∨ ∃ keys rest, it.iter = .body e.1 keys e.2 rest := by
  obtain ⟨m, iter, visited⟩ := it
  unfold step at h
  cases iter with
  | findMatching key keys =>
    dsimp only at h
    split at h <;> exact .inl h
  | body key keys front rest =>
    rcases List.mem_append.mp h with h | h
    · exact .inl h
    · obtain rfl := List.mem_singleton.mp h
      exact .inr ⟨keys, rest, rfl⟩
  | next key keys front rest =>
    dsimp only at h
    split at h <;> exact .inl h
  | _ => exact .inl h

/-- What was visited lies behind the iterator, each pair once. -/
structure Inv (it : MapIteration Key Value) : Prop where
  sorted : Sorted it.iter
  passed : ∀ e ∈ it.visited, Passed e it.iter
  nodup : it.visited.Nodup

theorem Inv.meanwhile (h : it.Inv) (calls : List (MapCall Key Value)) :
    (it.meanwhile calls).Inv := ⟨h.sorted, h.passed, h.nodup⟩

theorem nodup_step (h : it.Inv) : (it.step keyStage valueStage erases).visited.Nodup := by
  obtain ⟨m, iter, visited⟩ := it
  have hn := h.nodup
  unfold step
  cases iter with
  | findMatching key keys =>
    dsimp only
    split <;> exact hn
  | body key keys front rest =>
    have hnot : (key, front) ∉ visited := by
      intro hmem
      rcases h.passed _ hmem with hp | ⟨-, hp⟩
      · exact lt_irrefl _ hp
      · exact lt_irrefl _ hp
    show (visited ++ [(key, front)]).Nodup
    rw [← List.concat_eq_append]
    exact List.Nodup.concat hnot hn
  | next key keys front rest =>
    dsimp only
    split <;> exact hn
  | _ => exact hn

theorem Inv.step (h : it.Inv) (keyStage valueStage : Nat) (erases : Bool) :
    (it.step keyStage valueStage erases).Inv := by
  refine ⟨sorted_step h.sorted, fun e he => ?_, nodup_step h⟩
  rcases visited_step he with hv | ⟨keys, rest, hiter⟩
  · exact passed_step h.sorted (h.passed e hv)
  · unfold MapIteration.step
    rw [hiter]
    exact .inr ⟨rfl, le_refl _⟩

/-- The pair was visited, or the iterator still comes to it. -/
def Reached (it : MapIteration Key Value) (e : Key × Value) : Prop :=
  e ∈ it.visited ∨ e ∈ it.map.contents ∧ Ahead e it.iter

theorem mem_calls {m : ThreadSafeMultiMap Key Value} {calls : List (MapCall Key Value)}
    (hm : e ∈ m.contents) (hc : .erase e.1 e.2 ∉ calls) :
    e ∈ (calls.foldl ThreadSafeMultiMap.call m).contents := by
  induction calls generalizing m with
  | nil => exact hm
  | cons c calls ih =>
    have hc' := List.not_mem_of_not_mem_cons hc
    apply ih _ hc'
    cases c with
    | insert key value => exact ThreadSafeMultiMap.mem_insert.mpr (.inr hm)
    | erase key value =>
      refine ThreadSafeMultiMap.mem_erase.mpr ⟨?_, hm⟩
      rintro rfl
      exact hc List.mem_cons_self

theorem Reached.meanwhile (h : it.Reached e) {calls : List (MapCall Key Value)}
    (hc : .erase e.1 e.2 ∉ calls) : (it.meanwhile calls).Reached e :=
  h.imp_right fun h => ⟨mem_calls h.1 hc, h.2⟩

theorem visited_subset_step (h : e ∈ it.visited) :
    e ∈ (it.step keyStage valueStage erases).visited := by
  obtain ⟨m, iter, visited⟩ := it
  unfold step
  cases iter with
  | findMatching key keys =>
    dsimp only
    split <;> exact h
  | body key keys front rest => exact List.mem_append_left _ h
  | next key keys front rest =>
    dsimp only
    split <;> exact h
  | _ => exact h

theorem Reached.step (hk : 0 < keyStage) (hv : 0 < valueStage) (h : it.Reached e) :
    (it.step keyStage valueStage erases).Reached e := by
  rcases h with h | ⟨hm, ha⟩
  · exact .inl (visited_subset_step h)
  · exact ahead_step hk hv hm ha

end

/-! ## The loop comes to its end -/

/-- Keys first, then the values of a key, then the steps at one pair. -/
def rank (it : MapIteration Key Value) : ℕ ×ₗ ℕ :=
  match it.iter with
  | .getKeyIterator => toLex (it.map.keys.toFinset.card + 1, 0)
  | .findMatching key keys =>
    toLex ((Stage.remaining it.map.keys (.valid key keys)).card + 1,
      2 * (it.map.values key).toFinset.card + 3)
  | .body key keys front rest =>
    toLex ((Stage.remaining it.map.keys (.valid key keys)).card + 1,
      2 * (Stage.remaining (it.map.values key) (.valid front rest)).card + 2)
  | .next key keys front rest =>
    toLex ((Stage.remaining it.map.keys (.valid key keys)).card + 1,
      2 * (Stage.remaining (it.map.values key) (.valid front rest)).card + 1)
  | .skipKey key keys => toLex ((Stage.remaining it.map.keys (.valid key keys)).card + 1, 0)
  | .invalid => toLex (0, 0)

/-- A staged key is looked up that is no key of the map any more. -/
def Vanished (it : MapIteration Key Value) : Prop :=
  ∃ key keys, it.iter = .findMatching key keys ∧ key ∉ it.map.keys

section

variable {keyStage valueStage : Nat} {erases : Bool} {it : MapIteration Key Value}

theorem lex_lt_of_le {a a' b b' : ℕ} (ha : a ≤ a') (hb : b < b') :
    (toLex (a, b) : ℕ ×ₗ ℕ) < toLex (a', b') := by
  rw [Prod.Lex.toLex_lt_toLex]
  rcases lt_or_eq_of_le ha with h | h
  · exact .inl h
  · exact .inr ⟨h, hb⟩

theorem lex_lt_of_lt {a a' : ℕ} (b b' : ℕ) (ha : a < a') :
    (toLex (a, b) : ℕ ×ₗ ℕ) < toLex (a', b') := by
  rw [Prod.Lex.toLex_lt_toLex]
  exact .inl ha

theorem remaining_subset {α : Type} [LinearOrder α] {contents contents' : List α}
    (h : contents ⊆ contents') (s : Stage α) :
    Stage.remaining contents s ⊆ Stage.remaining contents' s := by
  cases s with
  | invalid => exact Finset.Subset.refl _
  | valid front rest =>
    intro x hx
    exact Stage.mem_remaining.mpr ((Stage.mem_remaining.mp hx).imp_right fun hx => ⟨h hx.1, hx.2⟩)

theorem populateStage_ne_invalid {α : Type} [LinearOrder α] {contents : List α} {stageSize : Nat}
    (hc : contents.Nodup) (hs : 0 < stageSize) {x : α} (hx : x ∈ contents) :
    Stage.populateStage contents stageSize none ≠ .invalid := by
  intro h
  have ha : (Stage.populateStage contents stageSize none).Ahead x :=
    Stage.ahead_populateStage hc hs hx (by simp)
  rw [h] at ha
  exact ha

theorem rank_step (hv : 0 < valueStage) (hs : Sorted it.iter)
    (hne : it.iter ≠ .invalid) (hmem : ¬ it.Vanished) :
    (it.step keyStage valueStage erases).rank < it.rank := by
  obtain ⟨m, iter, visited⟩ := it
  unfold step
  cases iter with
  | getKeyIterator =>
    dsimp only
    have hr : ∀ key keys, Stage.populateStage m.keys keyStage none = .valid key keys →
        Stage.remaining m.keys (.valid key keys) ⊂ m.keys.toFinset :=
      fun key keys h => Stage.remaining_populateStage m.nodup_keys h
    generalize Stage.populateStage m.keys keyStage none = s at hr
    cases s with
    | invalid => exact lex_lt_of_lt _ _ (Nat.succ_pos _)
    | valid key keys =>
      exact lex_lt_of_lt _ _ (Nat.succ_lt_succ (Finset.card_lt_card (hr key keys rfl)))
  | findMatching key keys =>
    dsimp only
    have hkey : key ∈ m.keys := by
      by_contra hno
      exact hmem ⟨key, keys, rfl, hno⟩
    obtain ⟨value, hvalue⟩ := ThreadSafeMultiMap.mem_keys.mp hkey
    have hpop := populateStage_ne_invalid (m.nodup_values key) hv
      (ThreadSafeMultiMap.mem_values.mpr hvalue)
    have hr : ∀ front rest, Stage.populateStage (m.values key) valueStage none = .valid front rest →
        Stage.remaining (m.values key) (.valid front rest) ⊂ (m.values key).toFinset :=
      fun front rest h => Stage.remaining_populateStage (m.nodup_values key) h
    generalize Stage.populateStage (m.values key) valueStage none = s at hpop hr
    cases s with
    | invalid => exact absurd rfl hpop
    | valid front rest =>
      have hcard := Finset.card_lt_card (hr front rest rfl)
      exact lex_lt_of_le (le_refl _) (by dsimp only; omega)
  | body key keys front rest =>
    dsimp only
    have hsub : (if erases then (m.erase key front).2 else m).contents ⊆ m.contents := by
      cases erases with
      | false => exact fun _ => id
      | true => exact fun e he => (ThreadSafeMultiMap.mem_erase.mp he).2
    generalize (if erases then (m.erase key front).2 else m) = m' at hsub
    have hkeys : m'.keys ⊆ m.keys := by
      intro k hk
      obtain ⟨v, hv⟩ := ThreadSafeMultiMap.mem_keys.mp hk
      exact ThreadSafeMultiMap.mem_keys.mpr ⟨v, hsub hv⟩
    have hvalues : m'.values key ⊆ m.values key := fun v hv =>
      ThreadSafeMultiMap.mem_values.mpr (hsub (ThreadSafeMultiMap.mem_values.mp hv))
    have h1 := Finset.card_le_card (remaining_subset hkeys (.valid key keys))
    have h2 := Finset.card_le_card (remaining_subset hvalues (.valid front rest))
    exact lex_lt_of_le (by dsimp only; omega) (by dsimp only; omega)
  | next key keys front rest =>
    dsimp only
    have hr : ∀ front' rest',
        (Stage.valid front rest).next (m.values key) valueStage = .valid front' rest' →
        Stage.remaining (m.values key) (.valid front' rest') ⊂
          Stage.remaining (m.values key) (.valid front rest) :=
      fun front' rest' h => Stage.remaining_next (m.nodup_values key) hs.2 h
    generalize (Stage.valid front rest).next (m.values key) valueStage = s at hr
    cases s with
    | invalid => exact lex_lt_of_le (le_refl _) (by dsimp only; omega)
    | valid front' rest' =>
      have hcard := Finset.card_lt_card (hr front' rest' rfl)
      exact lex_lt_of_le (le_refl _) (by dsimp only; omega)
  | skipKey key keys =>
    dsimp only
    have hr : ∀ key' keys', (Stage.valid key keys).next m.keys keyStage = .valid key' keys' →
        Stage.remaining m.keys (.valid key' keys') ⊂ Stage.remaining m.keys (.valid key keys) :=
      fun key' keys' h => Stage.remaining_next m.nodup_keys hs h
    generalize (Stage.valid key keys).next m.keys keyStage = s at hr
    cases s with
    | invalid => exact lex_lt_of_lt _ _ (Nat.succ_pos _)
    | valid key' keys' =>
      exact lex_lt_of_lt _ _ (Nat.succ_lt_succ (Finset.card_lt_card (hr key' keys' rfl)))
  | invalid => exact absurd rfl hne

/-- The end is the end. -/
theorem iter_of_invalid (h : it.iter = .invalid) :
    (it.step keyStage valueStage erases).iter = .invalid := by
  unfold step
  rw [h]
  exact h

/-- The loop does not move while the key is not in the map. -/
theorem step_of_vanished (h : it.Vanished) : it.step keyStage valueStage erases = it := by
  obtain ⟨key, keys, hiter, hno⟩ := h
  have hnil : it.map.values key = [] := by
    apply List.eq_nil_iff_forall_not_mem.mpr
    intro value hv
    exact hno (ThreadSafeMultiMap.mem_keys.mpr ⟨value, ThreadSafeMultiMap.mem_values.mp hv⟩)
  have hstage : Stage.populateStage (it.map.values key) valueStage none = .invalid := by
    rw [hnil]
    simp [Stage.populateStage, Stage.elementsAfter]
  unfold step
  rw [hiter]
  dsimp only
  rw [hstage]

end

/-! ## Runs -/

section

variable {keyStage valueStage : Nat} {m : ThreadSafeMultiMap Key Value}
  {others : Nat → List (MapCall Key Value)} {erases : Nat → Bool} {last : Nat}

theorem inv_run (n : Nat) : (run keyStage valueStage m others erases n).Inv := by
  induction n with
  | zero =>
    refine ⟨trivial, fun e he => ?_, List.nodup_nil⟩
    cases he
  | succ n ih => exact (ih.meanwhile (others n)).step keyStage valueStage (erases n)

theorem reached_run (hk : 0 < keyStage) (hv : 0 < valueStage) {e : Key × Value}
    (hm : e ∈ m.contents) {n : Nat} (hkept : ∀ i < n, .erase e.1 e.2 ∉ others i) :
    (run keyStage valueStage m others erases n).Reached e := by
  induction n with
  | zero => exact .inr ⟨hm, trivial⟩
  | succ n ih =>
    have h := ih fun i hi => hkept i (by omega)
    exact (h.meanwhile (hkept n (by omega))).step hk hv

/-- When the others are done, only the loop makes steps. -/
theorem run_succ (hlast : ∀ n ≥ last, others n = []) {n : Nat} (hn : last ≤ n) :
    run keyStage valueStage m others erases (n + 1) =
      (run keyStage valueStage m others erases n).step keyStage valueStage (erases n) := by
  rw [run, hlast n hn]
  rfl

theorem iter_run_of_invalid {n : Nat}
    (h : (run keyStage valueStage m others erases n).iter = .invalid) (k : Nat) :
    (run keyStage valueStage m others erases (n + k)).iter = .invalid := by
  induction k with
  | zero => exact h
  | succ k ih => exact iter_of_invalid ih

theorem run_of_vanished (hlast : ∀ n ≥ last, others n = []) {n : Nat} (hn : last ≤ n)
    (h : (run keyStage valueStage m others erases n).Vanished) (k : Nat) :
    run keyStage valueStage m others erases (n + k) =
      run keyStage valueStage m others erases n := by
  induction k with
  | zero => rfl
  | succ k ih =>
    rw [← Nat.add_assoc, run_succ hlast (by omega), ih]
    exact step_of_vanished h

theorem run_ends (hv : 0 < valueStage) (hlast : ∀ n ≥ last, others n = [])
    (h : ∀ n ≥ last, ¬ (run keyStage valueStage m others erases n).Vanished) {n : Nat}
    (hn : last ≤ n) : ∃ k, (run keyStage valueStage m others erases k).iter = .invalid := by
  generalize hr : (run keyStage valueStage m others erases n).rank = r
  induction r using WellFoundedLT.induction generalizing n with
  | ind r ih =>
    by_cases hend : (run keyStage valueStage m others erases n).iter = .invalid
    · exact ⟨n, hend⟩
    · have hlt : ((run keyStage valueStage m others erases n).step keyStage valueStage
          (erases n)).rank < (run keyStage valueStage m others erases n).rank :=
        rank_step hv (inv_run n).sorted hend (h n hn)
      rw [← run_succ hlast hn, hr] at hlt
      exact ih _ hlt (by omega) rfl

/-- After so many steps each pair that stayed in the map was visited once, unless the loop itself
erased it, and no pair was visited twice. -/
def Covers (m : ThreadSafeMultiMap Key Value) (others : Nat → List (MapCall Key Value)) (n : Nat)
    (visited : List (Key × Value)) : Prop :=
  visited.Nodup ∧
    ∀ e ∈ m.contents, (∀ i < n, .erase e.1 e.2 ∉ others i) → visited.count e = 1

theorem covers_of_invalid (hk : 0 < keyStage) (hv : 0 < valueStage) {n : Nat}
    (h : (run keyStage valueStage m others erases n).iter = .invalid) :
    Covers m others n (run keyStage valueStage m others erases n).visited := by
  refine ⟨(inv_run n).nodup, fun e hm hkept => ?_⟩
  rcases reached_run hk hv hm hkept with hmem | ⟨-, ha⟩
  · exact List.count_eq_one_of_mem (inv_run n).nodup hmem
  · rw [h] at ha
    exact absurd ha id

/-- The loop comes to its end, and has visited what it should, exactly when no key that it looks
up after the last change of the others has vanished from the map. -/
theorem a_full_iteration_ends_unless_a_staged_key_vanishes (hk : 0 < keyStage)
    (hv : 0 < valueStage) (m : ThreadSafeMultiMap Key Value)
    (others : Nat → List (MapCall Key Value)) (erases : Nat → Bool)
    (hlast : ∀ n ≥ last, others n = []) :
    (∃ n, (run keyStage valueStage m others erases n).iter = .invalid ∧
      Covers m others n (run keyStage valueStage m others erases n).visited) ↔
    ∀ n ≥ last, ¬ (run keyStage valueStage m others erases n).Vanished := by
  constructor
  · rintro ⟨n, hend, -⟩ i hi hvan
    have h1 := iter_run_of_invalid hend i
    have h2 := run_of_vanished hlast hi hvan n
    rw [Nat.add_comm, h2] at h1
    obtain ⟨key, keys, hiter, -⟩ := hvan
    rw [h1] at hiter
    cases hiter
  · intro h
    obtain ⟨n, hend⟩ := run_ends hv hlast h (le_refl last)
    exact ⟨n, hend, covers_of_invalid hk hv hend⟩

end

/-! ## A key that vanishes -/

section

open ByteOrder

/-- Two channels, with a subscriber each. -/
def twoChannels : ThreadSafeMultiMap Bytes Nat :=
  ((ThreadSafeMultiMap.empty.insert (ascii "b") 2).2.insert (ascii "a") 1).2

/-- The subscriber of the first channel leaves after it was visited, and another one comes. -/
def firstLeaves (n : Nat) : List (MapCall Bytes Nat) :=
  if n = 3 then [.erase (ascii "a") 1, .insert (ascii "c") 3] else []

/-- The subscriber of the second channel leaves while the loop is at the first. -/
def secondLeaves (n : Nat) : List (MapCall Bytes Nat) :=
  if n = 3 then [.erase (ascii "b") 2] else []

/-- A channel that was visited may vanish. -/
theorem the_loop_ends_when_a_visited_channel_vanishes :
    (run 100 100 twoChannels firstLeaves (fun _ => false) 13).iter = .invalid ∧
      ∀ n ≥ 4, ¬ (run 100 100 twoChannels firstLeaves (fun _ => false) n).Vanished := by
  have hlast : ∀ n ≥ 4, firstLeaves n = [] := by
    intro n hn
    unfold firstLeaves
    rw [if_neg (by omega)]
  have hend : (run 100 100 twoChannels firstLeaves (fun _ => false) 13).iter = .invalid := by
    decide +kernel
  exact ⟨hend, (a_full_iteration_ends_unless_a_staged_key_vanishes (by decide) (by decide)
    twoChannels firstLeaves (fun _ => false) hlast).mp
      ⟨13, hend, covers_of_invalid (by decide) (by decide) hend⟩⟩

/-- A channel that is staged and vanishes keeps the loop from its end. -/
theorem the_loop_never_ends_when_a_staged_channel_vanishes :
    (∀ n ≥ 4, secondLeaves n = []) ∧
      ∀ n, (run 100 100 twoChannels secondLeaves (fun _ => true) n).iter ≠ .invalid := by
  have hlast : ∀ n ≥ 4, secondLeaves n = [] := by
    intro n hn
    unfold secondLeaves
    rw [if_neg (by omega)]
  have hvan : (run 100 100 twoChannels secondLeaves (fun _ => true) 5).iter =
      .findMatching (ascii "b") [] ∧
      ascii "b" ∉ (run 100 100 twoChannels secondLeaves (fun _ => true) 5).map.keys := by
    decide +kernel
  refine ⟨hlast, fun n hend => ?_⟩
  have h1 := iter_run_of_invalid hend 5
  have h2 := run_of_vanished hlast (by decide) ⟨_, _, hvan.1, hvan.2⟩ n
  rw [Nat.add_comm, h2, hvan.1] at h1
  cases h1

end

end MapIteration

end quarkdb
