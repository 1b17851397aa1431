-- Rows of cells that are written over in part, and a heap of blocks that are allocated and
-- freed. A freed block has no cells, and counts how often it was freed.
import Mathlib

namespace Memory

/-! ## Rows of cells -/

section

variable {α : Type} {cells new p : List α} {offset n : Nat}

/-- The cells after new ones are written over them, from an offset on. -/
def patch (cells : List α) (offset : Nat) (new : List α) : List α :=
  cells.take offset ++ (new ++ cells.drop (offset + new.length))

theorem length_patch (h : offset + new.length ≤ cells.length) :
    (patch cells offset new).length = cells.length := by
  unfold patch
  simp only [List.length_append, List.length_take, List.length_drop]
  omega

/-- What is written goes on from what stands before it. -/
theorem take_patch (h : cells.take offset = p) (hp : p.length = offset)
    (hn : n = offset + new.length) : (patch cells offset new).take n = p ++ new := by
  unfold patch
  rw [h, ← List.append_assoc, hn, ← hp, ← List.length_append, List.take_left]

theorem patch_singleton {a : α} (h : offset < cells.length) :
    patch cells offset [a] = cells.set offset a := by
  rw [List.set_eq_take_append_cons_drop, if_pos h]
  rfl

end

/-! ## A heap -/

/-- A block of the heap. It has no cells once it is freed, and a cell holds nothing until it is
written. -/
structure Block (α : Type) where
  cells : Option (List (Option α))
  frees : Nat := 0
  deriving Repr, DecidableEq

/-- Blocks in the order of their allocation. Where a block stands is its address. -/
abbrev Heap (α : Type) := List (Block α)

namespace Heap

variable {α : Type} {heap : Heap α} {a b : Nat} {block : Block α}

/-- The new block gets the next address. -/
def malloc (heap : Heap α) (size : Nat) : Heap α :=
  heap ++ [{ cells := some (List.replicate size none) }]

/-- A block that was freed before is freed once more. -/
def free (heap : Heap α) (a : Nat) : Heap α :=
  heap.modify a fun block => { cells := none, frees := block.frees + 1 }

def write (heap : Heap α) (a : Nat) (cells : List (Option α)) : Heap α :=
  heap.modify a fun block => { block with cells := some cells }

/-- The cells of a block that is live. -/
def cells (heap : Heap α) (a : Nat) : Option (List (Option α)) := heap[a]?.bind Block.cells

theorem getElem?_malloc (size : Nat) (h : b < heap.length) :
    (heap.malloc size)[b]? = heap[b]? := List.getElem?_append_left h

theorem getElem?_malloc_new (size : Nat) :
    (heap.malloc size)[heap.length]? = some { cells := some (List.replicate size none) } :=
  List.getElem?_concat_length

theorem length_malloc (size : Nat) : (heap.malloc size).length = heap.length + 1 :=
  List.length_append

theorem getElem?_free (h : heap[a]? = some block) :
    (heap.free a)[a]? = some { cells := none, frees := block.frees + 1 } := by
  unfold free
  rw [List.getElem?_modify_eq, h]
  rfl

theorem getElem?_free_ne (h : a ≠ b) : (heap.free a)[b]? = heap[b]? := by
  unfold free
  exact List.getElem?_modify_ne _ _ h

theorem length_free : (heap.free a).length = heap.length := List.length_modify ..

theorem getElem?_write {cells : List (Option α)} (h : heap[a]? = some block) :
    (heap.write a cells)[a]? = some { block with cells := some cells } := by
  unfold write
  rw [List.getElem?_modify_eq, h]
  rfl

theorem getElem?_write_ne {cells : List (Option α)} (h : a ≠ b) :
    (heap.write a cells)[b]? = heap[b]? := by
  unfold write
  exact List.getElem?_modify_ne _ _ h

theorem length_write {cells : List (Option α)} : (heap.write a cells).length = heap.length :=
  List.length_modify ..

theorem cells_eq_some {cells : List (Option α)} (h : heap[a]? = some { cells := some cells }) :
    heap.cells a = some cells := by
  unfold Heap.cells
  rw [h]
  rfl

theorem cells_congr {heap' : Heap α} (h : heap'[a]? = heap[a]?) : heap'.cells a = heap.cells a := by
  unfold Heap.cells
  rw [h]

theorem lt_of_cells {bytes : List (Option α)} (h : heap.cells a = some bytes) : a < heap.length := by
  by_contra hout
  unfold Heap.cells at h
  rw [List.getElem?_eq_none (Nat.le_of_not_lt hout)] at h
  cases h

theorem cells_malloc {size : Nat} (h : b < heap.length) :
    (heap.malloc size).cells b = heap.cells b := cells_congr (getElem?_malloc size h)

theorem cells_malloc_new {size : Nat} :
    (heap.malloc size).cells heap.length = some (List.replicate size none) :=
  cells_eq_some (getElem?_malloc_new size)

theorem cells_write {cells : List (Option α)} (h : a < heap.length) :
    (heap.write a cells).cells a = some cells := by
  unfold Heap.cells
  rw [getElem?_write (List.getElem?_eq_getElem h)]
  rfl

theorem cells_free (h : a < heap.length) : (heap.free a).cells a = none := by
  unfold Heap.cells
  rw [getElem?_free (List.getElem?_eq_getElem h)]
  rfl

theorem cells_free_ne (h : a ≠ b) : (heap.free a).cells b = heap.cells b :=
  cells_congr (getElem?_free_ne h)

end Heap

/-! ## Who owns which block -/

/-- A heap that has grown: the blocks that were there are as they were, and of the others some are
live, and the rest was freed once each. -/
structure Grown {α : Type} (base : Heap α) (live : List Nat) (heap : Heap α) : Prop where
  length_le : base.length ≤ heap.length
  others : ∀ a < base.length, heap[a]? = base[a]?
  owned : ∀ a ∈ live, base.length ≤ a ∧ ∃ cells, heap[a]? = some { cells := some cells }
  freed : ∀ a ∉ live, base.length ≤ a → ∀ block, heap[a]? = some block →
    block = { cells := none, frees := 1 }

namespace Grown

variable {α : Type} {base heap : Heap α} {live : List Nat} {a : Nat}

theorem refl (base : Heap α) : Grown base [] base where
  length_le := Nat.le_refl _
  others _ _ := rfl
  owned _ h := absurd h List.not_mem_nil
  freed a _ hle block hb := by
    rw [List.getElem?_eq_none hle] at hb
    cases hb

theorem lt_length (h : Grown base live heap) (ha : a ∈ live) : a < heap.length := by
  obtain ⟨-, cells, hcells⟩ := h.owned a ha
  exact (List.getElem?_eq_some_iff.mp hcells).1

theorem malloc (h : Grown base live heap) (size : Nat) :
    Grown base (heap.length :: live) (heap.malloc size) where
  length_le := by
    rw [Heap.length_malloc]
    exact Nat.le_succ_of_le h.length_le
  others a ha := by
    rw [Heap.getElem?_malloc size (Nat.lt_of_lt_of_le ha h.length_le), h.others a ha]
  owned a ha := by
    rcases List.mem_cons.mp ha with rfl | ha
    · exact ⟨h.length_le, _, Heap.getElem?_malloc_new size⟩
    · rw [Heap.getElem?_malloc size (h.lt_length ha)]
      exact h.owned a ha
  freed a ha hle block hb := by
    obtain ⟨hne, ha⟩ := not_or.mp (mt List.mem_cons.mpr ha)
    have hlt : a < heap.length := by
      have := (List.getElem?_eq_some_iff.mp hb).1
      rw [Heap.length_malloc] at this
      omega
    rw [Heap.getElem?_malloc size hlt] at hb
    exact h.freed a ha hle block hb

theorem write (h : Grown base live heap) (ha : a ∈ live) (cells : List (Option α)) :
    Grown base live (heap.write a cells) where
  length_le := by
    rw [Heap.length_write]
    exact h.length_le
  others b hb := by
    rw [Heap.getElem?_write_ne (by have := (h.owned a ha).1; omega), h.others b hb]
  owned b hb := by
    obtain ⟨hle, old, hold⟩ := h.owned b hb
    by_cases hab : a = b
    · subst hab
      exact ⟨hle, cells, Heap.getElem?_write hold⟩
    · rw [Heap.getElem?_write_ne hab]
      exact ⟨hle, old, hold⟩
  freed b hb hle block hblock := by
    have hab : a ≠ b := fun hab => hb (hab ▸ ha)
    rw [Heap.getElem?_write_ne hab] at hblock
    exact h.freed b hb hle block hblock

theorem free (h : Grown base live heap) (ha : a ∈ live) :
    Grown base (live.filter (· ≠ a)) (heap.free a) where
  length_le := by
    rw [Heap.length_free]
    exact h.length_le
  others b hb := by
    rw [Heap.getElem?_free_ne (by have := (h.owned a ha).1; omega), h.others b hb]
  owned b hb := by
    obtain ⟨hb, hne⟩ := List.mem_filter.mp hb
    rw [Heap.getElem?_free_ne (Ne.symm (of_decide_eq_true hne))]
    exact h.owned b hb
  freed b hb hle block hblock := by
    by_cases hab : a = b
    · subst hab
      obtain ⟨-, cells, hcells⟩ := h.owned a ha
      rw [Heap.getElem?_free hcells] at hblock
      cases hblock
      rfl
    · rw [Heap.getElem?_free_ne hab] at hblock
      refine h.freed b (fun hin => hb ?_) hle block hblock
      exact List.mem_filter.mpr ⟨hin, decide_eq_true (Ne.symm hab)⟩

theorem trans {live' : List Nat} {heap' : Heap α} (h : Grown base live heap)
    (h' : Grown heap live' heap') : Grown base (live' ++ live) heap' where
  length_le := Nat.le_trans h.length_le h'.length_le
  others a ha := by rw [h'.others a (Nat.lt_of_lt_of_le ha h.length_le), h.others a ha]
  owned a ha := by
    rcases List.mem_append.mp ha with ha | ha
    · obtain ⟨hle, hcells⟩ := h'.owned a ha
      exact ⟨Nat.le_trans h.length_le hle, hcells⟩
    · rw [h'.others a (h.lt_length ha)]
      exact h.owned a ha
  freed a ha hle block hb := by
    obtain ⟨hnew, hold⟩ := not_or.mp (mt List.mem_append.mpr ha)
    rcases Nat.lt_or_ge a heap.length with hlt | hge
    · rw [h'.others a hlt] at hb
      exact h.freed a hold hle block hb
    · exact h'.freed a hnew hge block hb

end Grown

end Memory
