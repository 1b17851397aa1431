-- What holds of a history: something happened in it, and nothing has ended it since. A run
-- whose states follow such a fact is proved one step at a time.
import Mathlib

namespace Histories

variable {α : Type}

/-- At some point of the past `start` held of what came then, and whatever came later kept it. -/
def Since (start : List α → α → Prop) (keeps : α → Prop) (past : List α) : Prop :=
  ∃ before x later, past = before ++ x :: later ∧ start before x ∧ ∀ y ∈ later, keeps y

variable {start : List α → α → Prop} {keeps : α → Prop} {past : List α} {x : α}

@[simp] theorem since_nil : ¬ Since start keeps [] := by
  rintro ⟨before, x, later, heq, -, -⟩
  simp at heq

/-- The last of the past starts it, or keeps what was started before. -/
theorem since_snoc :
    Since start keeps (past ++ [x]) ↔ start past x ∨ Since start keeps past ∧ keeps x := by
  constructor
  · rintro ⟨before, y, later, heq, hs, hk⟩
    rcases List.eq_nil_or_concat later with rfl | ⟨later', z, rfl⟩
    · obtain ⟨rfl, rfl⟩ := List.append_inj' heq rfl |>.imp id fun h => by simpa using h
      exact .inl hs
    · rw [List.concat_eq_append] at heq hk
      rw [← List.cons_append, ← List.append_assoc] at heq
      obtain ⟨hp, hx⟩ := List.append_inj' heq rfl
      have hx : x = z := by simpa using hx
      subst hx
      exact .inr ⟨⟨before, y, later', hp, hs, fun w hw => hk w (by simp [hw])⟩, hk x (by simp)⟩
  · rintro (hs | ⟨⟨before, y, later, rfl, hs, hk⟩, hx⟩)
    · exact ⟨past, x, [], rfl, hs, by simp⟩
    · refine ⟨before, y, later ++ [x], by simp, hs, fun w hw => ?_⟩
      rcases List.mem_append.mp hw with hw | hw
      · exact hk w hw
      · rw [List.mem_singleton.mp hw]
        exact hx

/-- What ends it at one point has it start again afterwards. -/
theorem Since.restarts {before later : List α}
    (h : Since start keeps (before ++ x :: later)) (hx : ¬ keeps x)
    (hs : ∀ past, ¬ start past x) :
    ∃ mid y rest, later = mid ++ y :: rest ∧ start (before ++ x :: mid) y ∧
      ∀ z ∈ rest, keeps z := by
  induction later using List.reverseRecOn with
  | nil =>
    rcases since_snoc.mp h with hstart | ⟨-, hk⟩
    · exact absurd hstart (hs before)
    · exact absurd hk hx
  | append_singleton later y ih =>
    rw [← List.cons_append, ← List.append_assoc] at h
    rcases since_snoc.mp h with hstart | ⟨hsince, hk⟩
    · exact ⟨later, y, [], rfl, hstart, by simp⟩
    · obtain ⟨mid, w, rest, rfl, hw, hrest⟩ := ih hsince
      refine ⟨mid, w, rest ++ [y], by simp, hw, fun z hz => ?_⟩
      rcases List.mem_append.mp hz with hz | hz
      · exact hrest z hz
      · rw [List.mem_singleton.mp hz]
        exact hk

end Histories
