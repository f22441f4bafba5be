import Mathlib.Algebra.Ring.Nat
import Mathlib.Data.List.Basic
import Mathlib.Data.List.Induction

/-!
# Chained transformations

A transformation of one item that also changes a state, applied to the items of a list in turn
(`transduce`). When another transformation inverts it on every item, whatever the state, and leaves
the same state, it inverts it on lists (`transduce_transduce`).

A list is split into blocks of equal length (`exists_flatMap_eq`), a loop over the indices of blocks
is a fold over them (`foldlM_range`), and one that collects what comes out is the chained
transformation (`foldl_eq_transduce`).
-/

namespace CxxPandora.Lib

variable {σ α β γ ρ : Type*}

/-- What comes out of a transformation of the items of a list in turn, from a state. -/
def transduce (f : σ → α → β × σ) : σ → List α → List β
  | _, [] => []
  | s, x :: xs => (f s x).1 :: transduce f (f s x).2 xs

/-- An inverse on every item that changes the state in the same way is an inverse on lists. -/
theorem transduce_transduce {f : σ → α → β × σ} {g : σ → β → α × σ}
    (h : ∀ s x, g s (f s x).1 = (x, (f s x).2)) (s : σ) (xs : List α) :
    transduce g s (transduce f s xs) = xs := by
  induction xs generalizing s with
  | nil => rfl
  | cons x xs ih => rw [transduce, transduce, h, ih]

/-- One item comes out for each that goes in. -/
theorem length_transduce (f : σ → α → β × σ) (s : σ) (xs : List α) :
    (transduce f s xs).length = xs.length := by
  induction xs generalizing s with
  | nil => rfl
  | cons x xs ih => rw [transduce, List.length_cons, List.length_cons, ih]

/-- A fold that collects what is written for each item that comes out. -/
theorem foldl_eq_transduce (f : σ → α → β × σ) (w : β → List γ) (s : σ) (out : List γ)
    (xs : List α) :
    (xs.foldl (fun p x => ((f p.1 x).2, p.2 ++ w (f p.1 x).1)) (s, out)).2 =
      out ++ (transduce f s xs).flatMap w := by
  induction xs generalizing s out with
  | nil => rw [transduce, List.flatMap_nil, List.append_nil, List.foldl_nil]
  | cons x xs ih => rw [List.foldl_cons, ih, transduce, List.flatMap_cons, List.append_assoc]

/-- A loop over the indices of a list is a fold over its items, when each pass finds its item. -/
theorem foldlM_range {xs : List α} {get : ℕ → Option α}
    (hget : ∀ i (hi : i < xs.length), get i = some xs[i]) (g : ρ → α → ρ) (r : ρ) :
    (List.range xs.length).foldlM (fun r i => (get i).map (g r)) r = some (xs.foldl g r) := by
  induction xs using List.reverseRecOn with
  | nil => rfl
  | append_singleton xs x ih =>
    have hinit : ∀ i (hi : i < xs.length), get i = some xs[i] := by
      intro i hi
      rw [hget i (by rw [List.length_append]; omega), List.getElem_append_left hi]
    have hlast : get xs.length = some x := by
      rw [hget xs.length (by rw [List.length_append]; exact Nat.lt_succ_self _),
        List.getElem_concat_length rfl]
    rw [List.length_append, List.length_singleton, List.range_succ, List.foldlM_append, ih hinit,
      List.foldl_append]
    simp [hlast]

/-- The blocks of a list, when its length is a multiple of theirs. -/
theorem exists_flatMap_eq {w : β → List γ} {n : ℕ} (hw : ∀ l : List γ, l.length = n → ∃ b, w b = l)
    (k : ℕ) {l : List γ} (hl : l.length = n * k) :
    ∃ blocks : List β, blocks.length = k ∧ blocks.flatMap w = l := by
  induction k generalizing l with
  | zero => exact ⟨[], rfl, (List.eq_nil_of_length_eq_zero hl).symm⟩
  | succ k ih =>
    rw [Nat.mul_succ] at hl
    obtain ⟨b, hb⟩ := hw (l.take n) (List.length_take_of_le (by omega))
    obtain ⟨blocks, hlen, hblocks⟩ := ih (l := l.drop n) (by rw [List.length_drop]; omega)
    refine ⟨b :: blocks, by rw [List.length_cons, hlen], ?_⟩
    rw [List.flatMap_cons, hb, hblocks, List.take_append_drop]

/-- The length of blocks of equal length. -/
theorem length_flatMap_eq {w : β → List γ} {n : ℕ} (hw : ∀ b, (w b).length = n) (blocks : List β) :
    (blocks.flatMap w).length = n * blocks.length := by
  induction blocks with
  | nil => rfl
  | cons b blocks ih =>
    rw [List.flatMap_cons, List.length_append, hw, ih, List.length_cons, Nat.mul_succ, Nat.add_comm]

/-- A block is found at the multiple of the length that its index says. -/
theorem take_drop_flatMap {w : β → List γ} {n : ℕ} (hw : ∀ b, (w b).length = n) {blocks : List β}
    {i : ℕ} (hi : i < blocks.length) :
    ((blocks.flatMap w).drop (n * i)).take n = w blocks[i] := by
  have hsplit : blocks.flatMap w =
      (blocks.take i).flatMap w ++ (w blocks[i] ++ (blocks.drop (i + 1)).flatMap w) := by
    rw [← List.flatMap_cons, List.getElem_cons_drop, ← List.flatMap_append, List.take_append_drop]
  have hlen : ((blocks.take i).flatMap w).length = n * i := by
    rw [length_flatMap_eq hw, List.length_take_of_le (Nat.le_of_lt hi)]
  rw [hsplit, List.drop_left' hlen, List.take_left' (hw _)]

end CxxPandora.Lib
