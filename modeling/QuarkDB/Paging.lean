-- Reading a sorted list page by page. A page begins at a cursor and says where the next
-- one begins; the least name stands for the beginning, and for the end.
import Mathlib

namespace Paging

variable {α β κ : Type}

/-! ## Rows and cursors -/

section Rows

variable [LinearOrder κ] (name : α → κ)

/-- The rows stand in the order of their names, each name once. -/
def Sorted (rows : List α) : Prop := rows.Pairwise fun a b => name a < name b

instance (rows : List α) : Decidable (Sorted name rows) :=
  inferInstanceAs (Decidable (rows.Pairwise _))

/-- Rows that are sorted are known by what they are. -/
theorem Sorted.eq_of_mem_iff {rows rows' : List α} (h : Sorted name rows) (h' : Sorted name rows')
    (hmem : ∀ a, a ∈ rows ↔ a ∈ rows') : rows = rows' := by
  have hnodup : ∀ {rows : List α}, Sorted name rows → rows.Nodup :=
    fun hr => hr.imp fun hlt he => absurd hlt (by rw [he]; exact lt_irrefl _)
  have hperm := (List.perm_ext_iff_of_nodup (hnodup h) (hnodup h')).mpr hmem
  exact hperm.eq_of_pairwise (fun a b _ _ hab hba => absurd hab (lt_asymm hba)) h h'

/-- The rows from a cursor on. -/
def since (rows : List α) (cursor : κ) : List α := rows.dropWhile fun a => name a < cursor

theorem since_of_le {rows : List α} {cursor : κ} (h : ∀ a ∈ rows, cursor ≤ name a) :
    since name rows cursor = rows := by
  cases rows with
  | nil => rfl
  | cons a rows =>
    have ha : ¬ name a < cursor := not_lt.mpr (h a (by simp))
    simp [since, ha]

theorem since_cons_of_lt {a : α} {rows : List α} {cursor : κ} (h : name a < cursor) :
    since name (a :: rows) cursor = since name rows cursor := by
  simp [since, h]

/-- The rows from the name of a row on. -/
theorem since_name {before rest : List α} {a : α} (h : Sorted name (before ++ a :: rest)) :
    since name (before ++ a :: rest) (name a) = a :: rest := by
  induction before with
  | nil =>
    apply since_of_le
    intro b hb
    rcases List.mem_cons.mp hb with rfl | hb
    · exact le_refl _
    · exact le_of_lt ((List.pairwise_cons.mp h).1 b hb)
  | cons b before ih =>
    obtain ⟨hlt, hs⟩ := List.pairwise_cons.mp h
    rw [List.cons_append, since_cons_of_lt name (hlt a (by simp))]
    exact ih hs

theorem mem_since_iff {rows : List α} (hs : Sorted name rows) {cursor : κ} {a : α} :
    a ∈ since name rows cursor ↔ a ∈ rows ∧ cursor ≤ name a := by
  induction rows with
  | nil => simp [since]
  | cons b rows ih =>
    obtain ⟨hlt, hrest⟩ := List.pairwise_cons.mp hs
    by_cases hb : name b < cursor
    · rw [since_cons_of_lt name hb, ih hrest, List.mem_cons]
      constructor
      · exact fun h => ⟨.inr h.1, h.2⟩
      · rintro ⟨rfl | h, hle⟩
        · exact absurd hb (not_lt.mpr hle)
        · exact ⟨h, hle⟩
    · have hall : ∀ x ∈ b :: rows, cursor ≤ name x := by
        intro x hx
        rcases List.mem_cons.mp hx with rfl | hx
        · exact not_lt.mp hb
        · exact le_trans (not_lt.mp hb) (le_of_lt (hlt x hx))
      rw [since_of_le name hall]
      exact ⟨fun h => ⟨h, hall a h⟩, fun h => h.1⟩

/-- Rows under other names, in the same order. -/
theorem since_map {α' κ' : Type} [LinearOrder κ'] {name' : α' → κ'} {f : α → α'} {rows : List α}
    {cursor : κ} {cursor' : κ'} (h : ∀ a ∈ rows, name' (f a) < cursor' ↔ name a < cursor) :
    since name' (rows.map f) cursor' = (since name rows cursor).map f := by
  induction rows with
  | nil => rfl
  | cons a rows ih =>
    have hrest := ih fun b hb => h b (List.mem_cons_of_mem a hb)
    by_cases ha : name a < cursor
    · rw [List.map_cons, since_cons_of_lt name' ((h a List.mem_cons_self).mpr ha),
        since_cons_of_lt name ha, hrest]
    · have ha' : ¬ name' (f a) < cursor' := fun hlt => ha ((h a List.mem_cons_self).mp hlt)
      simp [since, ha, ha']

theorem since_suffix (rows : List α) (cursor : κ) : since name rows cursor <:+ rows :=
  List.dropWhile_suffix _

end Rows

/-! ## Pages -/

variable [LinearOrder κ] [OrderBot κ] (name : α → κ) (emit : α → List β)

theorem since_bot (rows : List α) : since name rows ⊥ = rows :=
  since_of_le name fun _ _ => bot_le

/-- Where the next page begins: at the first row that is left, if any is. -/
def cursorOf : List α → κ
  | [] => ⊥
  | a :: _ => name a

/-- A page of these rows: what the first of them emit, and the cursor of the others.
Where rows are left, the page has at least one. -/
def IsPage (rows : List α) (out : List β) (next : κ) : Prop :=
  ∃ seen rest, rows = seen ++ rest ∧ out = seen.flatMap emit ∧ next = cursorOf name rest ∧
    (rest ≠ [] → seen ≠ [])

/-- Follow the cursors until the end: `page cursor size out next` is one call. -/
inductive Traversal (page : κ → Nat → List β → κ → Prop) : κ → List Nat → List β → Prop
  | last {cursor : κ} {size : Nat} {out : List β} (h : page cursor size out ⊥) :
    Traversal page cursor [size] out
  | more {cursor next : κ} {size : Nat} {sizes : List Nat} {out rest : List β}
    (h : page cursor size out next) (hn : next ≠ ⊥) (ht : Traversal page next sizes rest) :
    Traversal page cursor (size :: sizes) (out ++ rest)

/-- The calls of these sizes read the rows page by page, from any cursor that is reached. -/
structure Pages (page : κ → Nat → List β → κ → Prop) (good : Nat → Prop) (reach : κ → Prop)
    (rows : List α) : Prop where
  sorted : Sorted name rows
  reach_name : ∀ a ∈ rows, reach (name a)
  some_page : ∀ cursor size, good size → reach cursor → ∃ out next, page cursor size out next
  is_page : ∀ cursor size out next, good size → reach cursor → page cursor size out next →
    IsPage name emit (since name rows cursor) out next

variable {name emit} {page : κ → Nat → List β → κ → Prop} {good : Nat → Prop} {reach : κ → Prop}
  {rows : List α}

/-- A page ends the reading, or it is followed by the rows from its cursor on. -/
theorem Pages.step (h : Pages name emit page good reach rows) {cursor next : κ} {size : Nat}
    {out : List β} (hg : good size) (hc : reach cursor) (hp : page cursor size out next) :
    (next = ⊥ ∧ out = (since name rows cursor).flatMap emit) ∨
    (next ≠ ⊥ ∧ reach next ∧
      (since name rows next).length < (since name rows cursor).length ∧
      out ++ (since name rows next).flatMap emit = (since name rows cursor).flatMap emit) := by
  obtain ⟨seen, rest, hrows, rfl, rfl, hne⟩ := h.is_page cursor size out next hg hc hp
  cases rest with
  | nil => exact .inl ⟨rfl, by rw [hrows, List.append_nil]⟩
  | cons a rest =>
    have hseen : seen ≠ [] := hne (List.cons_ne_nil _ _)
    obtain ⟨before, hbefore⟩ := since_suffix name rows cursor
    have hall : rows = (before ++ seen) ++ a :: rest := by
      rw [← hbefore, hrows, List.append_assoc]
    have hsince : since name rows (name a) = a :: rest := by
      have hs := h.sorted
      rw [hall] at hs ⊢
      exact since_name name hs
    obtain ⟨b, seen, rfl⟩ := List.exists_cons_of_ne_nil hseen
    have hlt : name b < name a := by
      have hs := h.sorted
      rw [hall] at hs
      exact (List.pairwise_append.mp hs).2.2 b (by simp) a (by simp)
    refine .inr ⟨ne_bot_of_gt hlt, h.reach_name a (by rw [hall]; simp), ?_, ?_⟩
    · rw [cursorOf, hsince, hrows]
      simp only [List.length_append, List.length_cons]
      omega
    · rw [cursorOf, hsince, hrows, List.flatMap_append]

/-- A reading that came to its end has read all that there was from its cursor on. -/
theorem Pages.complete (h : Pages name emit page good reach rows) {cursor : κ} {sizes : List Nat}
    {out : List β} (hc : reach cursor) (hg : ∀ size ∈ sizes, good size)
    (ht : Traversal page cursor sizes out) : out = (since name rows cursor).flatMap emit := by
  induction ht with
  | last hp =>
    rcases h.step (hg _ (by simp)) hc hp with ⟨-, ho⟩ | ⟨hn, -⟩
    · exact ho
    · exact absurd rfl hn
  | more hp hn _ ih =>
    rcases h.step (hg _ (by simp)) hc hp with ⟨hb, -⟩ | ⟨-, hm, -, ho⟩
    · exact absurd hb hn
    · rw [ih hm fun size hs => hg size (by simp [hs])]
      exact ho

/-- Whatever the sizes are, the reading comes to its end. -/
theorem Pages.terminates (h : Pages name emit page good reach rows) {cursor : κ}
    (hc : reach cursor) {sizes : Nat → Nat} (hg : ∀ i, good (sizes i)) :
    ∃ n, Traversal page cursor ((List.range (n + 1)).map sizes)
      ((since name rows cursor).flatMap emit) := by
  generalize hlen : (since name rows cursor).length = len
  induction len using Nat.strongRecOn generalizing cursor sizes with
  | ind len ih =>
    obtain ⟨out, next, hp⟩ := h.some_page cursor (sizes 0) (hg 0) hc
    rcases h.step (hg 0) hc hp with ⟨rfl, ho⟩ | ⟨hn, hm, hlt, ho⟩
    · rw [← ho]
      exact ⟨0, .last hp⟩
    · obtain ⟨n, ht⟩ := ih _ (hlen ▸ hlt) hm (fun i => hg (i + 1)) rfl
      refine ⟨n + 1, ?_⟩
      rw [List.range_succ_eq_map, List.map_cons, List.map_map, ← ho]
      exact .more hp hn ht

/-- A reading begins with a call. -/
theorem Traversal.first {cursor : κ} {sizes : List Nat} {out : List β}
    (h : Traversal page cursor sizes out) :
    ∃ size ∈ sizes, ∃ out' next, page cursor size out' next := by
  cases h with
  | last hp => exact ⟨_, List.mem_singleton_self _, _, _, hp⟩
  | more hp _ _ => exact ⟨_, List.mem_cons_self, _, _, hp⟩

/-- Where each call has one answer, a reading with pages of one size has one result. -/
theorem Traversal.unique {s : Nat}
    (hfun : ∀ cursor out out' next next', page cursor s out next → page cursor s out' next' →
      out = out' ∧ next = next')
    {cursor : κ} {sizes sizes' : List Nat} {out out' : List β} (hs : ∀ n ∈ sizes, n = s)
    (hs' : ∀ n ∈ sizes', n = s) (ht : Traversal page cursor sizes out)
    (ht' : Traversal page cursor sizes' out') : out = out' := by
  induction ht generalizing sizes' out' with
  | last hp =>
    obtain rfl := hs _ (List.mem_singleton_self _)
    cases ht' with
    | last hp' =>
      obtain rfl := hs' _ (List.mem_singleton_self _)
      exact (hfun _ _ _ _ _ hp hp').1
    | more hp' hn' _ =>
      obtain rfl := hs' _ List.mem_cons_self
      exact absurd (hfun _ _ _ _ _ hp hp').2.symm hn'
  | more hp hn _ ih =>
    obtain rfl := hs _ List.mem_cons_self
    cases ht' with
    | last hp' =>
      obtain rfl := hs' _ (List.mem_singleton_self _)
      exact absurd (hfun _ _ _ _ _ hp hp').2 hn
    | more hp' hn' ht' =>
      obtain rfl := hs' _ List.mem_cons_self
      obtain ⟨rfl, rfl⟩ := hfun _ _ _ _ _ hp hp'
      rw [ih (fun n h => hs n (List.mem_cons_of_mem _ h))
        (fun n h => hs' n (List.mem_cons_of_mem _ h)) ht']

/-- Reading from the least cursor on comes to its end, with these results in all,
whatever the sizes of the pages are. -/
def ReadsAll (page : κ → Nat → List β → κ → Prop) (good : Nat → Prop) (all : List β) : Prop :=
  (∀ sizes : Nat → Nat, (∀ i, good (sizes i)) →
    ∃ n, Traversal page ⊥ ((List.range (n + 1)).map sizes) all) ∧
  ∀ sizes out, (∀ size ∈ sizes, good size) → Traversal page ⊥ sizes out → out = all

theorem Pages.readsAll (h : Pages name emit page good reach rows) (hb : reach ⊥) :
    ReadsAll page good (rows.flatMap emit) := by
  refine ⟨fun sizes hg => ?_, fun sizes out hg ht => ?_⟩
  · have ht := h.terminates hb hg
    rwa [since_bot] at ht
  · rw [h.complete hb hg ht, since_bot]

end Paging
