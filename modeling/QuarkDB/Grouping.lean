-- Runs of a list: entries of one group that follow each other are added up. A group that
-- comes up again later starts anew, and what is found for it is its last run.
import Mathlib

namespace Grouping

variable {γ : Type} [DecidableEq γ]

/-- The runs so far, the last one first: one entry more. -/
def addRun (acc : List (γ × Nat)) (x : γ × Nat) : List (γ × Nat) :=
  match acc with
  | [] => [x]
  | (g, n) :: rest => if g = x.1 then (g, n + x.2) :: rest else x :: (g, n) :: rest

def runs (xs : List (γ × Nat)) : List (γ × Nat) := xs.foldl addRun []

/-- What is found for a group: its last run. -/
def lookupRun (g : γ) (rs : List (γ × Nat)) : Option Nat := rs.lookup g

/-- All entries of a group. -/
def total (g : γ) (xs : List (γ × Nat)) : Nat := ((xs.filter fun x => x.1 = g).map Prod.snd).sum

/-- Another group stands between two entries of the group. -/
def Interrupted (g : γ) (xs : List (γ × Nat)) : Prop :=
  ∃ before x after, xs = before ++ x :: after ∧ x.1 ≠ g ∧ g ∈ before.map Prod.fst ∧
    g ∈ after.map Prod.fst

/-- Another group stands after an entry of the group. -/
def Left (g : γ) (xs : List (γ × Nat)) : Prop :=
  ∃ before x after, xs = before ++ x :: after ∧ x.1 ≠ g ∧ g ∈ before.map Prod.fst

section

variable {g : γ} {xs : List (γ × Nat)} {x : γ × Nat}

theorem lookupRun_self (g : γ) (n : Nat) (rest : List (γ × Nat)) :
    lookupRun g ((g, n) :: rest) = some n := by
  unfold lookupRun
  rw [List.lookup_cons, beq_self_eq_true]

theorem lookupRun_of_ne (h : x.1 ≠ g) (rest : List (γ × Nat)) :
    lookupRun g (x :: rest) = lookupRun g rest := by
  unfold lookupRun
  rw [List.lookup_cons, beq_eq_false_iff_ne.mpr h.symm]

theorem runs_concat (xs : List (γ × Nat)) (x : γ × Nat) :
    runs (xs ++ [x]) = addRun (runs xs) x := by
  unfold runs
  rw [List.foldl_append]
  rfl

theorem total_concat (xs : List (γ × Nat)) (x : γ × Nat) :
    total g (xs ++ [x]) = total g xs + if x.1 = g then x.2 else 0 := by
  unfold total
  rw [List.filter_append, List.map_append, List.sum_append]
  by_cases h : x.1 = g
  · simp [h]
  · simp [h]

theorem total_eq_zero (h : g ∉ xs.map Prod.fst) : total g xs = 0 := by
  unfold total
  have : xs.filter (fun x => x.1 = g) = [] := by
    refine List.filter_eq_nil_iff.mpr fun x hx he => h ?_
    exact List.mem_map.mpr ⟨x, hx, of_decide_eq_true he⟩
  rw [this]
  rfl

theorem total_pos (hp : ∀ x ∈ xs, x.1 = g → 0 < x.2) (h : g ∈ xs.map Prod.fst) :
    0 < total g xs := by
  obtain ⟨x, hx, hg⟩ := List.mem_map.mp h
  have hm : x.2 ∈ (xs.filter fun x => x.1 = g).map Prod.snd :=
    List.mem_map.mpr ⟨x, List.mem_filter.mpr ⟨hx, decide_eq_true hg⟩, rfl⟩
  exact Nat.lt_of_lt_of_le (hp x hx hg) (List.single_le_sum (by simp) _ hm)

theorem total_singleton (x : γ × Nat) : total g [x] = if x.1 = g then x.2 else 0 := by
  rw [← List.nil_append [x], total_concat]
  exact Nat.zero_add _

theorem total_append (xs ys : List (γ × Nat)) :
    total g (xs ++ ys) = total g xs + total g ys := by
  unfold total
  rw [List.filter_append, List.map_append, List.sum_append]

/-! ## One entry more -/

omit [DecidableEq γ] in
theorem left_concat : Left g (xs ++ [x]) ↔ Left g xs ∨ (x.1 ≠ g ∧ g ∈ xs.map Prod.fst) := by
  constructor
  · rintro ⟨before, y, after, h, hy, hb⟩
    rcases List.eq_nil_or_concat' after with rfl | ⟨after, z, rfl⟩
    · obtain ⟨rfl, he⟩ := List.append_inj' h rfl
      cases he
      exact .inr ⟨hy, hb⟩
    · have h' : xs ++ [x] = (before ++ y :: after) ++ [z] := by rw [h]; simp
      obtain ⟨rfl, -⟩ := List.append_inj' h' rfl
      exact .inl ⟨before, y, after, rfl, hy, hb⟩
  · rintro (⟨before, y, after, rfl, hy, hb⟩ | ⟨hx, hg⟩)
    · exact ⟨before, y, after ++ [x], by simp, hy, hb⟩
    · exact ⟨xs, x, [], rfl, hx, hg⟩

omit [DecidableEq γ] in
theorem interrupted_concat :
    Interrupted g (xs ++ [x]) ↔ Interrupted g xs ∨ (x.1 = g ∧ Left g xs) := by
  constructor
  · rintro ⟨before, y, after, h, hy, hb, ha⟩
    rcases List.eq_nil_or_concat' after with rfl | ⟨after, z, rfl⟩
    · cases ha
    · have h' : xs ++ [x] = (before ++ y :: after) ++ [z] := by rw [h]; simp
      obtain ⟨rfl, he⟩ := List.append_inj' h' rfl
      cases he
      rw [List.map_append, List.mem_append] at ha
      rcases ha with ha | ha
      · exact .inl ⟨before, y, after, rfl, hy, hb, ha⟩
      · exact .inr ⟨(List.mem_singleton.mp ha).symm, before, y, after, rfl, hy, hb⟩
  · rintro (⟨before, y, after, rfl, hy, hb, ha⟩ | ⟨hx, before, y, after, rfl, hy, hb⟩)
    · refine ⟨before, y, after ++ [x], by simp, hy, hb, ?_⟩
      rw [List.map_append]
      exact List.mem_append_left _ ha
    · refine ⟨before, y, after ++ [x], by simp, hy, hb, ?_⟩
      rw [List.map_append, ← hx]
      exact List.mem_append_right _ (List.mem_singleton_self _)

/-- While the last run is one of the group, another group in it interrupts. -/
theorem interrupted_of_left (hl : Left g xs) {n : Nat} {rest : List (γ × Nat)}
    (hr : runs xs = (g, n) :: rest) : Interrupted g xs := by
  induction xs using List.reverseRecOn generalizing n rest with
  | nil =>
    obtain ⟨before, x, after, h, -⟩ := hl
    simp at h
  | append_singleton xs x ih =>
    rw [runs_concat] at hr
    have hx : x.1 = g := by
      unfold addRun at hr
      split at hr
      · rw [List.cons.injEq] at hr
        rw [hr.1]
      · split at hr
        · rename_i he
          cases hr
          exact he.symm
        · rw [List.cons.injEq] at hr
          rw [hr.1]
    rcases left_concat.mp hl with hl | ⟨hne, -⟩
    · exact interrupted_concat.mpr (.inr ⟨hx, hl⟩)
    · exact absurd hx hne

/-! ## The last run of a group -/

/-- What is found for a group: nothing, or its last run, which is all of it unless another
group interrupts. -/
def LastRun (g : γ) (xs : List (γ × Nat)) : Option Nat → Prop
  | none => g ∉ xs.map Prod.fst
  | some n => g ∈ xs.map Prod.fst ∧ n ≤ total g xs ∧ (¬ Interrupted g xs → n = total g xs) ∧
      ((∀ x ∈ xs, x.1 = g → 0 < x.2) → Interrupted g xs → n < total g xs)

theorem lookupRun_addRun_of_ne (acc : List (γ × Nat)) (hx : x.1 ≠ g) :
    lookupRun g (addRun acc x) = lookupRun g acc := by
  unfold addRun
  split
  · exact lookupRun_of_ne hx []
  · split
    · rename_i g' n rest he
      have hg : g' ≠ g := by
        rw [he]
        exact hx
      rw [lookupRun_of_ne hg, lookupRun_of_ne hg]
    · exact lookupRun_of_ne hx _

/-- After an entry of the group, the last run is one of the group. -/
theorem left_of_mem (hm : g ∈ xs.map Prod.fst) (hr : ∀ n rest, runs xs ≠ (g, n) :: rest) :
    Left g xs := by
  induction xs using List.reverseRecOn with
  | nil => cases hm
  | append_singleton xs x ih =>
    by_cases hx : x.1 = g
    · exfalso
      rw [runs_concat] at hr
      unfold addRun at hr
      split at hr
      · exact hr x.2 [] (by rw [← hx])
      · split at hr
        · rename_i he
          exact hr _ _ (by rw [he, hx])
        · exact hr x.2 _ (by rw [← hx])
    · rw [List.map_append, List.mem_append] at hm
      rcases hm with hm | hm
      · exact left_concat.mpr (.inr ⟨hx, hm⟩)
      · exact absurd (List.mem_singleton.mp hm).symm hx

omit [DecidableEq γ] in
theorem Left.mem (h : Left g xs) : g ∈ xs.map Prod.fst := by
  obtain ⟨before, x, after, rfl, -, hb⟩ := h
  rw [List.map_append]
  exact List.mem_append_left _ hb

theorem lastRun_concat_of_ne {o : Option Nat} (h : LastRun g xs o) (hx : x.1 ≠ g) :
    LastRun g (xs ++ [x]) o := by
  have hmem : g ∈ (xs ++ [x]).map Prod.fst ↔ g ∈ xs.map Prod.fst := by
    simp [hx.symm]
  have htotal : total g (xs ++ [x]) = total g xs := by
    rw [total_concat, if_neg hx]
    rfl
  have hint : Interrupted g (xs ++ [x]) ↔ Interrupted g xs := by
    rw [interrupted_concat]
    exact or_iff_left fun he => hx he.1
  cases o with
  | none => exact fun hm => h (hmem.mp hm)
  | some n =>
    obtain ⟨hm, hle, hall, hpart⟩ := h
    unfold LastRun
    rw [htotal, hint, hmem]
    refine ⟨hm, hle, hall, fun hp => hpart fun y hy => hp y (List.mem_append_left _ hy)⟩

/-- What is found for a group is its last run. -/
theorem lastRun_runs (g : γ) (xs : List (γ × Nat)) : LastRun g xs (lookupRun g (runs xs)) := by
  induction xs using List.reverseRecOn with
  | nil => exact List.not_mem_nil
  | append_singleton xs x ih =>
    rw [runs_concat]
    by_cases hx : x.1 = g
    · have hmem : g ∈ (xs ++ [x]).map Prod.fst := by simp [hx]
      have htotal : total g (xs ++ [x]) = total g xs + x.2 := by rw [total_concat, if_pos hx]
      have hint : Interrupted g (xs ++ [x]) ↔ Interrupted g xs ∨ Left g xs := by
        rw [interrupted_concat]
        exact or_congr_right (and_iff_right hx)
      by_cases hr : ∃ n rest, runs xs = (g, n) :: rest
      · -- the run goes on
        obtain ⟨n, rest, hr⟩ := hr
        have hint : Interrupted g (xs ++ [x]) ↔ Interrupted g xs :=
          hint.trans (or_iff_left_of_imp fun hl => interrupted_of_left hl hr)
        rw [hr, lookupRun_self] at ih
        obtain ⟨-, hle, hall, hpart⟩ := ih
        have hnew : lookupRun g (addRun (runs xs) x) = some (n + x.2) := by
          rw [hr]
          unfold addRun
          dsimp only
          rw [if_pos hx.symm, lookupRun_self]
        rw [hnew]
        unfold LastRun
        rw [htotal, hint]
        refine ⟨hmem, by omega, fun hn => by rw [hall hn], fun hp hi => ?_⟩
        have := hpart (fun y hy => hp y (List.mem_append_left _ hy)) hi
        omega
      · -- a run starts
        have hr : ∀ n rest, runs xs ≠ (g, n) :: rest := fun n rest he => hr ⟨n, rest, he⟩
        have hself : ∀ rest, lookupRun g (x :: rest) = some x.2 := by
          intro rest
          rw [← hx]
          exact lookupRun_self x.1 x.2 rest
        have hnew : lookupRun g (addRun (runs xs) x) = some x.2 := by
          unfold addRun
          split
          · exact hself []
          · rename_i g' n rest he
            rw [if_neg (fun hg => hr n rest (by rw [he, hg, hx]))]
            exact hself _
        rw [hnew]
        unfold LastRun
        rw [htotal, hint]
        refine ⟨hmem, by omega, fun hn => ?_, fun hp hi => ?_⟩
        · rw [total_eq_zero fun hm => hn (.inr (left_of_mem hm hr)), Nat.zero_add]
        · have hm : g ∈ xs.map Prod.fst := by
            rcases hi with ⟨before, y, after, rfl, -, hb, -⟩ | hl
            · rw [List.map_append]
              exact List.mem_append_left _ hb
            · exact hl.mem
          have := total_pos (fun y hy => hp y (List.mem_append_left _ hy)) hm
          omega
    · rw [lookupRun_addRun_of_ne _ hx]
      exact lastRun_concat_of_ne ih hx

/-- The run that goes on is one of a group that came up, and not larger than all of it. -/
theorem mem_of_runs_head {rest : List (γ × Nat)} (h : runs xs = x :: rest) :
    x.1 ∈ xs.map Prod.fst ∧ x.2 ≤ total x.1 xs := by
  have hr := lastRun_runs x.1 xs
  rw [h, lookupRun_self] at hr
  exact ⟨hr.1, hr.2.1⟩

end

end Grouping
