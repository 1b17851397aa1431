-- How many keys of a finite map meet a predicate, and what becomes of that number.
import Mathlib

namespace Tally

variable {α : Type} {β : α → Type}

def count (m : AList β) (p : α → Bool) : Nat := m.keys.countP p

theorem count_le (m : AList β) (p : α → Bool) : count m p ≤ m.keys.length := List.countP_le_length

/-- The number depends on which keys there are, and only on those that are counted. -/
theorem count_congr {m m' : AList β} {p : α → Bool} (h : ∀ a, p a = true → (a ∈ m ↔ a ∈ m')) :
    count m p = count m' p := by
  unfold count
  rw [List.countP_eq_length_filter, List.countP_eq_length_filter]
  apply List.Perm.length_eq
  rw [List.perm_ext_iff_of_nodup (m.keys_nodup.filter p) (m'.keys_nodup.filter p)]
  intro a
  simp only [List.mem_filter, ← AList.mem_keys]
  constructor
  · rintro ⟨hm, hp⟩
    exact ⟨(h a hp).mp hm, hp⟩
  · rintro ⟨hm, hp⟩
    exact ⟨(h a hp).mpr hm, hp⟩

theorem count_eq_zero {m : AList β} {p : α → Bool} :
    count m p = 0 ↔ ∀ a ∈ m, p a = false := by
  unfold count
  rw [List.countP_eq_zero]
  simp [AList.mem_keys]

theorem count_pos {m : AList β} {p : α → Bool} {a : α} (ha : a ∈ m) (hp : p a = true) :
    0 < count m p :=
  List.countP_pos_iff.mpr ⟨a, AList.mem_keys.mp ha, hp⟩

variable [DecidableEq α]

theorem count_insert_of_mem {m : AList β} {p : α → Bool} {a : α} (b : β a) (h : a ∈ m) :
    count (m.insert a b) p = count m p := by
  apply count_congr
  intro x _
  rw [AList.mem_insert]
  constructor
  · rintro (rfl | hx)
    · exact h
    · exact hx
  · exact Or.inr

theorem count_insert_of_notMem {m : AList β} {p : α → Bool} {a : α} (b : β a) (h : a ∉ m)
    (hp : p a = true) : count (m.insert a b) p = count m p + 1 := by
  unfold count
  rw [AList.keys_insert, List.countP_cons_of_pos hp, List.erase_of_not_mem]
  rwa [← AList.mem_keys]

theorem count_insert_of_not {m : AList β} {p : α → Bool} {a : α} (b : β a) (hp : p a = false) :
    count (m.insert a b) p = count m p := by
  apply count_congr
  intro x hx
  rw [AList.mem_insert, or_iff_right]
  rintro rfl
  rw [hp] at hx
  cases hx

theorem count_erase_of_mem {m : AList β} {p : α → Bool} {a : α} (h : a ∈ m) (hp : p a = true) :
    count (m.erase a) p + 1 = count m p := by
  have hperm := List.perm_cons_erase (AList.mem_keys.mp h)
  unfold count
  rw [AList.keys_erase, hperm.countP_eq, List.countP_cons_of_pos hp]

theorem count_erase_of_not {m : AList β} {p : α → Bool} {a : α} (hp : p a = false) :
    count (m.erase a) p = count m p := by
  apply count_congr
  intro x hx
  rw [AList.mem_erase, and_iff_right]
  rintro rfl
  rw [hp] at hx
  cases hx

theorem length_insert_le (m : AList β) (a : α) (b : β a) :
    (m.insert a b).keys.length ≤ m.keys.length + 1 := by
  rw [AList.keys_insert, List.length_cons]
  have := List.length_erase_le (l := m.keys) (a := a)
  omega

theorem length_erase_le (m : AList β) (a : α) : (m.erase a).keys.length ≤ m.keys.length := by
  rw [AList.keys_erase]
  exact List.length_erase_le

end Tally
