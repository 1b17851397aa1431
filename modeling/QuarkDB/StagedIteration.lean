-- Iteration in stages over a set that others change meanwhile. A stage of the
-- next few elements is copied at once, and when it is used up the next one is
-- copied from behind its last element. What is in the set all the time is
-- visited once, and nothing is visited twice.
import Mathlib

namespace quarkdb

/-- An iterator is exhausted, or points to the front of the stage that it copied. -/
inductive Stage (α : Type)
  | invalid
  | valid (front : α) (rest : List α)

namespace Stage

variable {α : Type} [LinearOrder α]

/-- The elements of a set behind a given one, in their order. -/
def elementsAfter (contents : List α) : Option α → List α
  | none => contents.insertionSort (· ≤ ·)
  | some last => (contents.filter (last < ·)).insertionSort (· ≤ ·)

/-- Copies the next stage, of at most `stageSize` elements. -/
def populateStage (contents : List α) (stageSize : Nat) (last : Option α) : Stage α :=
  match (elementsAfter contents last).take stageSize with
  | [] => .invalid
  | front :: rest => .valid front rest

/-- Advances the iterator. -/
def next (contents : List α) (stageSize : Nat) : Stage α → Stage α
  | .invalid => .invalid
  | .valid front [] => populateStage contents stageSize (some front)
  | .valid _ (front :: rest) => .valid front rest

/-! ## What an iterator has still to visit -/

/-- The stage goes upwards. -/
def Sorted : Stage α → Prop
  | .invalid => True
  | .valid front rest => (front :: rest).Pairwise (· < ·)

/-- The element stands in the stage, or behind all of it. -/
def Ahead (x : α) : Stage α → Prop
  | .invalid => False
  | .valid front rest => x ∈ front :: rest ∨ ∀ y ∈ front :: rest, y < x

/-- The element stands before the stage. -/
def Passed (x : α) : Stage α → Prop
  | .invalid => True
  | .valid front _ => x < front

/-! ## Copying a stage -/

theorem mem_elementsAfter {contents : List α} {last : Option α} {x : α} :
    x ∈ elementsAfter contents last ↔ x ∈ contents ∧ ∀ l, last = some l → l < x := by
  cases last with
  | none => simp [elementsAfter, List.mem_insertionSort]
  | some l => simp [elementsAfter, List.mem_insertionSort]

theorem elementsAfter_sorted {contents : List α} (h : contents.Nodup) (last : Option α) :
    (elementsAfter contents last).Pairwise (· < ·) := by
  have hsorted : ∀ l : List α, l.Nodup → (l.insertionSort (· ≤ ·)).Pairwise (· < ·) := by
    intro l hl
    have hle : (l.insertionSort (· ≤ ·)).Pairwise (· ≤ ·) := List.pairwise_insertionSort _ l
    have hne := (List.perm_insertionSort (· ≤ ·) l).nodup_iff.mpr hl
    exact (hle.and hne).imp fun h => lt_of_le_of_ne h.1 h.2
  cases last with
  | none => exact hsorted contents h
  | some l => exact hsorted _ (h.filter _)

theorem sorted_populateStage {contents : List α} (h : contents.Nodup) (stageSize : Nat)
    (last : Option α) : (populateStage contents stageSize last).Sorted := by
  have hs := (elementsAfter_sorted h last).sublist (List.take_sublist stageSize _)
  unfold populateStage
  split
  · trivial
  · rename_i ht
    rw [ht] at hs
    exact hs

/-- An element of the set behind the last one is in the stage that is copied, or
behind it. -/
theorem ahead_populateStage {contents : List α} (h : contents.Nodup) {stageSize : Nat}
    (hsize : 0 < stageSize) {last : Option α} {x : α} (hx : x ∈ contents)
    (hl : ∀ l, last = some l → l < x) : (populateStage contents stageSize last).Ahead x := by
  have hmem := mem_elementsAfter.mpr ⟨hx, hl⟩
  have hs := elementsAfter_sorted h last
  unfold populateStage
  split
  · rename_i ht
    rcases List.take_eq_nil_iff.mp ht with h0 | h0
    · omega
    · rw [h0] at hmem
      cases hmem
  · rename_i front rest ht
    rw [← List.take_append_drop stageSize (elementsAfter contents last), ht] at hmem hs
    rcases List.mem_append.mp hmem with hm | hm
    · exact .inl hm
    · exact .inr fun y hy => (List.pairwise_append.mp hs).2.2 y hy x hm

theorem passed_populateStage {contents : List α} {stageSize : Nat} {last x : α} (hx : x ≤ last) :
    (populateStage contents stageSize (some last)).Passed x := by
  unfold populateStage
  split
  · trivial
  · rename_i front rest ht
    have hmem : front ∈ elementsAfter contents (some last) :=
      List.mem_of_mem_take (by rw [ht]; exact List.mem_cons_self)
    exact lt_of_le_of_lt hx ((mem_elementsAfter.mp hmem).2 last rfl)

/-! ## Advancing -/

theorem sorted_next {contents : List α} (h : contents.Nodup) (stageSize : Nat) {s : Stage α}
    (hs : s.Sorted) : (s.next contents stageSize).Sorted := by
  cases s with
  | invalid => trivial
  | valid front rest =>
    cases rest with
    | nil => exact sorted_populateStage h stageSize _
    | cons y ys => exact hs.of_cons

/-- What stands ahead and is not visited now stays ahead, as long as it is in the set. -/
theorem ahead_next {contents : List α} (h : contents.Nodup) {stageSize : Nat}
    (hsize : 0 < stageSize) {front x : α} {rest : List α} (hx : x ∈ contents) (hne : x ≠ front)
    (ha : (valid front rest).Ahead x) : ((valid front rest).next contents stageSize).Ahead x := by
  cases rest with
  | nil =>
    apply ahead_populateStage h hsize hx
    intro l hl
    cases hl
    rcases ha with hm | hlt
    · exact absurd (List.mem_singleton.mp hm) hne
    · exact hlt front List.mem_cons_self
  | cons y ys =>
    rcases ha with hm | hlt
    · rcases List.mem_cons.mp hm with rfl | hm
      · exact absurd rfl hne
      · exact .inl hm
    · exact .inr fun z hz => hlt z (List.mem_cons_of_mem _ hz)

theorem passed_next {contents : List α} {stageSize : Nat} {front x : α} {rest : List α}
    (hs : (valid front rest).Sorted) (hx : x ≤ front) :
    ((valid front rest).next contents stageSize).Passed x := by
  cases rest with
  | nil => exact passed_populateStage hx
  | cons y ys => exact lt_of_le_of_lt hx (List.rel_of_pairwise_cons hs List.mem_cons_self)

/-! ## What is left gets less -/

/-- The elements that an iterator can still come to, while nothing is added. -/
def remaining (contents : List α) : Stage α → Finset α
  | .invalid => ∅
  | .valid front rest => rest.toFinset ∪ (contents.filter (front < ·)).toFinset

theorem mem_remaining {contents : List α} {front x : α} {rest : List α} :
    x ∈ remaining contents (valid front rest) ↔ x ∈ rest ∨ x ∈ contents ∧ front < x := by
  simp [remaining]

/-- The first stage is copied from the set. -/
theorem mem_populateStage {contents : List α} {stageSize : Nat} {last : Option α} {front : α}
    {rest : List α} (h : populateStage contents stageSize last = valid front rest) {x : α}
    (hx : x ∈ front :: rest) : x ∈ contents ∧ ∀ l, last = some l → l < x := by
  unfold populateStage at h
  split at h
  · cases h
  · rename_i f r ht
    cases h
    exact mem_elementsAfter.mp (List.mem_of_mem_take (by rw [ht]; exact hx))

/-- The iterator leaves an element behind as soon as it points to it. -/
theorem front_notMem_remaining {contents : List α} {front : α} {rest : List α}
    (hs : (valid front rest).Sorted) : front ∉ remaining contents (valid front rest) := by
  rw [mem_remaining]
  rintro (h | ⟨-, h⟩)
  · exact lt_irrefl front (List.rel_of_pairwise_cons hs h)
  · exact lt_irrefl front h

theorem remaining_populateStage {contents : List α} {stageSize : Nat} {front : α} {rest : List α}
    (hc : contents.Nodup) (h : populateStage contents stageSize none = valid front rest) :
    remaining contents (valid front rest) ⊂ contents.toFinset := by
  have hs : (valid front rest).Sorted := h ▸ sorted_populateStage hc stageSize none
  refine Finset.ssubset_iff_subset_ne.mpr ⟨fun x hx => ?_, fun he => ?_⟩
  · rw [List.mem_toFinset]
    rcases mem_remaining.mp hx with hx | hx
    · exact (mem_populateStage h (List.mem_cons_of_mem front hx)).1
    · exact hx.1
  · apply front_notMem_remaining hs
    rw [he, List.mem_toFinset]
    exact (mem_populateStage h List.mem_cons_self).1

theorem remaining_next {contents : List α} {stageSize : Nat} {front front' : α}
    {rest rest' : List α} (hc : contents.Nodup) (hs : (valid front rest).Sorted)
    (h : (valid front rest).next contents stageSize = valid front' rest') :
    remaining contents (valid front' rest') ⊂ remaining contents (valid front rest) := by
  have hs' : (valid front' rest').Sorted := h ▸ sorted_next hc stageSize hs
  have hlt : front < front' := by
    have hp : (valid front' rest').Passed front := h ▸ passed_next hs (le_refl front)
    exact hp
  have hmem : ∀ x ∈ front' :: rest', x ∈ remaining contents (valid front rest) := by
    intro x hx
    cases rest with
    | nil =>
      obtain ⟨h1, h2⟩ := mem_populateStage h hx
      exact mem_remaining.mpr (.inr ⟨h1, h2 front rfl⟩)
    | cons y ys =>
      cases h
      exact mem_remaining.mpr (.inl hx)
  refine Finset.ssubset_iff_subset_ne.mpr ⟨fun x hx => ?_, fun he => ?_⟩
  · rcases mem_remaining.mp hx with hx | ⟨h1, h2⟩
    · exact hmem x (List.mem_cons_of_mem front' hx)
    · exact mem_remaining.mpr (.inr ⟨h1, lt_trans hlt h2⟩)
  · exact front_notMem_remaining hs' (he ▸ hmem front' List.mem_cons_self)

end Stage

end quarkdb
