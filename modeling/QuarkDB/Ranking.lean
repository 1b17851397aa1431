-- Ranks: which value a number of elements of a list reach, and what a sorted list says of it.
import Mathlib

namespace Ranking

variable {α : Type*} [LinearOrder α]

/-- How many elements are as great as `m`, or greater. -/
def reaching (l : List α) (m : α) : Nat := l.countP fun x => m ≤ x

theorem reaching_append (l l' : List α) (m : α) :
    reaching (l ++ l') m = reaching l m + reaching l' m := by
  unfold reaching
  rw [List.countP_append]

theorem reaching_of_perm {l l' : List α} (h : l.Perm l') (m : α) :
    reaching l m = reaching l' m := by
  unfold reaching
  exact h.countP_eq _

theorem reaching_eq_length {l : List α} {m : α} (h : ∀ x ∈ l, m ≤ x) :
    reaching l m = l.length := by
  unfold reaching
  rw [List.countP_eq_length]
  intro x hx
  exact decide_eq_true (h x hx)

theorem reaching_eq_zero {l : List α} {m : α} (h : ∀ x ∈ l, x < m) : reaching l m = 0 := by
  unfold reaching
  rw [List.countP_eq_zero]
  intro x hx
  simpa using h x hx

theorem reaching_le_length (l : List α) (m : α) : reaching l m ≤ l.length := by
  unfold reaching
  exact List.countP_le_length

/-- In a sorted list, an element is the greatest value that is reached by as many elements as
there are from its place on. -/
theorem isGreatest_of_sorted {before after : List α} {x : α}
    (hs : (before ++ x :: after).Pairwise (· ≤ ·)) :
    IsGreatest {m | after.length + 1 ≤ reaching (before ++ x :: after) m} x := by
  obtain ⟨-, hafter, hbefore⟩ := List.pairwise_append.mp hs
  constructor
  · have hall : reaching (x :: after) x = after.length + 1 := by
      apply reaching_eq_length
      intro y hy
      rcases List.mem_cons.mp hy with rfl | hy
      · exact le_refl y
      · exact (List.pairwise_cons.mp hafter).1 y hy
    show after.length + 1 ≤ reaching (before ++ x :: after) x
    rw [reaching_append, hall]
    exact Nat.le_add_left _ _
  · intro m hm
    by_contra hlt
    -- nothing up to the place reaches `m`
    have hnone : reaching (before ++ [x]) m = 0 := by
      apply reaching_eq_zero
      intro y hy
      rcases List.mem_append.mp hy with hy | hy
      · exact lt_of_le_of_lt (hbefore y hy x List.mem_cons_self) (not_le.mp hlt)
      · rw [List.mem_singleton.mp hy]
        exact not_le.mp hlt
    have hcount : reaching (before ++ x :: after) m = reaching after m := by
      rw [List.append_cons, reaching_append, hnone, Nat.zero_add]
    have hle := reaching_le_length after m
    have hm' : after.length + 1 ≤ reaching (before ++ x :: after) m := hm
    omega

/-- The element at index `i`, when a list is sorted. -/
theorem isGreatest_insertionSort {l : List α} {i : Nat} (hi : i < l.length) :
    ∃ x, (l.insertionSort (· ≤ ·))[i]? = some x ∧
      IsGreatest {m | l.length - i ≤ reaching l m} x := by
  have hperm := l.perm_insertionSort (· ≤ ·)
  have hi' : i < (l.insertionSort (· ≤ ·)).length := by
    rw [hperm.length_eq]
    exact hi
  refine ⟨(l.insertionSort (· ≤ ·))[i], List.getElem?_eq_getElem hi', ?_⟩
  have hsplit : (l.insertionSort (· ≤ ·)).take i ++ (l.insertionSort (· ≤ ·))[i] ::
      (l.insertionSort (· ≤ ·)).drop (i + 1) = l.insertionSort (· ≤ ·) := by
    rw [List.cons_getElem_drop_succ, List.take_append_drop]
  have hsorted := l.pairwise_insertionSort (· ≤ ·)
  rw [← hsplit] at hsorted
  have h := isGreatest_of_sorted hsorted
  rw [hsplit, List.length_drop, hperm.length_eq] at h
  have hlen : l.length - (i + 1) + 1 = l.length - i := by omega
  simp only [hlen, reaching_of_perm hperm] at h
  exact h

end Ranking
