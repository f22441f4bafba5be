import Mathlib.Data.List.Basic
import Mathlib.Tactic.SplitIfs

/-!
# Bounded queues, and queues laid out in a ring of cells

`BoundedFifo` is a queue of at most `N` items in which a put to a full queue discards the oldest
item. `Laid` says that the items of a queue lie one after the other in a ring of cells, and its
lemmas say what a write behind the last item and an advance of the first index do to the queue.
-/

namespace CxxPandora.Lib

variable {α : Type*} {N : ℕ}

/-! ## The queue -/

/-- A queue of at most `N` items, the oldest first. -/
structure BoundedFifo (α : Type*) (N : ℕ) where
  /-- The items, the oldest first. -/
  items : List α
  /-- There are at most `N` of them. -/
  length_le : items.length ≤ N

namespace BoundedFifo

/-- The queue without items. -/
def empty : BoundedFifo α N := ⟨[], Nat.zero_le N⟩

/-- Append an item and, when `N` items were held already, discard the oldest. -/
def put (q : BoundedFifo α N) (x : α) : BoundedFifo α N :=
  if h : q.items.length < N then
    ⟨q.items ++ [x], by rw [List.length_append, List.length_singleton]; exact h⟩
  else ⟨(q.items ++ [x]).tail, by simpa using q.length_le⟩

/-- The queue without its oldest item; an empty queue stays as it is. -/
def drop (q : BoundedFifo α N) : BoundedFifo α N :=
  ⟨q.items.tail, by have := q.length_le; rw [List.length_tail]; omega⟩

/-- The items after a put to a queue with room. -/
theorem items_put_of_lt {q : BoundedFifo α N} (h : q.items.length < N) (x : α) :
    (q.put x).items = q.items ++ [x] := by
  rw [put, dif_pos h]

/-- The items after a put to a full queue. -/
theorem items_put_of_eq {q : BoundedFifo α N} (h : q.items.length = N) (x : α) :
    (q.put x).items = (q.items ++ [x]).tail := by
  rw [put, dif_neg (by omega)]

end BoundedFifo

/-! ## Items in a ring of cells -/

/-- Below twice the modulus, a remainder wraps at most once. -/
theorem mod_eq_ite {a m : ℕ} (h : a < 2 * m) : a % m = if a < m then a else a - m := by
  split_ifs with ha
  · exact Nat.mod_eq_of_lt ha
  · rw [Nat.mod_eq_sub_mod (by omega), Nat.mod_eq_of_lt (by omega)]

/-- The items lie one after the other in the cells from the index `first`, and go on at index `0`
after the last cell. -/
structure Laid (cells : List α) (first : ℕ) (items : List α) : Prop where
  /-- The first index is that of a cell. -/
  first_lt : first < cells.length
  /-- There is a cell for every item. -/
  length_le : items.length ≤ cells.length
  /-- Each item is in its cell. -/
  cell : ∀ i < items.length, cells[(first + i) % cells.length]? = items[i]?

/-- No items are laid out anywhere. -/
theorem Laid.nil {cells : List α} {first : ℕ} (h : first < cells.length) : Laid cells first [] :=
  ⟨h, Nat.zero_le _, by simp⟩

/-- A write to the cell behind the last item appends to the items, when a cell is free. -/
theorem Laid.push {cells items : List α} {first : ℕ} (h : Laid cells first items) (x : α)
    (hlt : items.length < cells.length) :
    Laid (cells.set ((first + items.length) % cells.length) x) first (items ++ [x]) := by
  have hfirst := h.first_lt
  have hlen : (items ++ [x]).length = items.length + 1 := by
    rw [List.length_append, List.length_singleton]
  refine ⟨by simpa using hfirst, by rw [hlen, List.length_set]; exact hlt, fun i hi => ?_⟩
  rw [List.length_set]
  rw [hlen] at hi
  by_cases hlast : i = items.length
  · -- The written cell.
    have hcell : (first + items.length) % cells.length < cells.length :=
      Nat.mod_lt _ (by omega)
    rw [hlast, List.getElem?_set_self hcell, List.getElem?_concat_length]
  · -- The other cells keep their items, since no two of them share an index.
    have hne : (first + items.length) % cells.length ≠ (first + i) % cells.length := by
      rw [mod_eq_ite (by omega), mod_eq_ite (by omega)]
      split_ifs <;> omega
    rw [List.getElem?_set_ne hne, List.getElem?_append_left (by omega)]
    exact h.cell i (by omega)

/-- The oldest item is in the first cell, and the others are laid out from the next one. -/
theorem Laid.pop {cells items : List α} {x : α} {first : ℕ} (h : Laid cells first (x :: items)) :
    cells[first]? = some x ∧ Laid cells ((first + 1) % cells.length) items := by
  have hfirst := h.first_lt
  have hlen := h.length_le
  rw [List.length_cons] at hlen
  constructor
  · have h0 := h.cell 0 (by simp)
    rwa [Nat.add_zero, Nat.mod_eq_of_lt hfirst, List.getElem?_cons_zero] at h0
  · refine ⟨Nat.mod_lt _ (by omega), by omega, fun i hi => ?_⟩
    have hi1 := h.cell (i + 1) (by simpa using hi)
    rw [List.getElem?_cons_succ] at hi1
    rw [Nat.mod_add_mod, show first + 1 + i = first + (i + 1) by omega]
    exact hi1

/-- When every cell holds an item, a write to the first cell and an advance of the first index
replace the oldest item by a newest one. -/
theorem Laid.overwrite {cells items : List α} {first : ℕ} (h : Laid cells first items) (x : α)
    (hfull : items.length = cells.length) :
    Laid (cells.set first x) ((first + 1) % cells.length) (items ++ [x]).tail := by
  have hfirst := h.first_lt
  -- A pop, and a push to the cell that it frees.
  cases items with
  | nil =>
    rw [List.length_nil] at hfull
    omega
  | cons y ys =>
    rw [List.length_cons] at hfull
    have hpush := h.pop.2.push x (by omega)
    have hcell : ((first + 1) % cells.length + ys.length) % cells.length = first := by
      rw [Nat.mod_add_mod, show first + 1 + ys.length = first + cells.length by omega,
        Nat.add_mod_right, Nat.mod_eq_of_lt hfirst]
    rw [hcell] at hpush
    exact hpush

end CxxPandora.Lib
