import Mathlib.Data.List.Basic
import Mathlib.Order.Basic
import Mathlib.Order.Bounds.Defs
import Mathlib.Order.Nat

/-!
# Increasing subsequences

`IncreasesTo xs i n` says that some increasing subsequence of `xs` of length `n` ends exactly at
index `i`. It has length one, or extends one that ends at an earlier index with a smaller element
(`IncreasesTo.cases`, `IncreasesTo.extend`). The lengths of the nonempty increasing subsequences are
those of the ones that end at some index (`exists_increasesTo`, `IncreasesTo.sublist`).
-/

namespace CxxPandora.Lib

variable {α : Type*} [Preorder α] {xs init : List α} {x y : α} {i j n : ℕ}

/-- Some increasing subsequence of the length ends exactly at the index. -/
def IncreasesTo (xs : List α) (i n : ℕ) : Prop :=
  ∃ init x, xs[i]? = some x ∧ init.Sublist (xs.take i) ∧ (init ++ [x]).Pairwise (· < ·) ∧
    n = init.length + 1

/-- The last element of a subsequence is at some index, and the rest is before it. -/
theorem sublist_concat_iff {α : Type*} {init l : List α} {y : α} :
    (init ++ [y]).Sublist l ↔ ∃ j, l[j]? = some y ∧ init.Sublist (l.take j) := by
  constructor
  · intro h
    obtain ⟨r₁, r₂, rfl, hinit, hlast⟩ := List.append_sublist_iff.mp h
    obtain ⟨a, b, rfl⟩ := List.append_of_mem (List.singleton_sublist.mp hlast)
    refine ⟨r₁.length + a.length, by simp, hinit.trans ?_⟩
    rw [← List.append_assoc, ← List.length_append, List.take_left]
    exact List.sublist_append_left r₁ a
  · rintro ⟨j, hj, hinit⟩
    have htake : l.take (j + 1) = l.take j ++ [y] := by
      rw [List.take_add_one, hj]
      rfl
    have hsub : (init ++ [y]).Sublist (l.take (j + 1)) := by
      rw [htake]
      exact hinit.append_right [y]
    exact hsub.trans (List.take_sublist _ l)

/-- A list that increases to its last element: the last element is above the rest. -/
theorem pairwise_concat_iff :
    (init ++ [x]).Pairwise (· < ·) ↔ init.Pairwise (· < ·) ∧ ∀ z ∈ init, z < x := by
  simp [List.pairwise_append]

/-- The element at an index is a subsequence. -/
theorem increasesTo_one (hi : i < xs.length) : IncreasesTo xs i 1 :=
  ⟨[], xs[i], List.getElem?_eq_getElem hi, List.nil_sublist _, List.pairwise_singleton _ _, rfl⟩

/-- A subsequence that ends at an index has at most as many elements as come up to there. -/
theorem IncreasesTo.le (h : IncreasesTo xs i n) : n ≤ i + 1 := by
  obtain ⟨init, x, -, hsub, -, rfl⟩ := h
  have hle := hsub.length_le.trans (List.length_take_le i xs)
  omega

/-- A subsequence that ends at an index is extended by a greater element at a later one. -/
theorem IncreasesTo.extend (h : IncreasesTo xs j n) (hji : j < i) (hj : xs[j]? = some y)
    (hi : xs[i]? = some x) (hlt : y < x) : IncreasesTo xs i (n + 1) := by
  obtain ⟨init, y', hy', hsub, hpair, rfl⟩ := h
  obtain rfl : y' = y := Option.some.inj (hy'.symm.trans hj)
  refine ⟨init ++ [y'], x, hi, ?_, ?_, by rw [List.length_append, List.length_singleton]⟩
  · refine sublist_concat_iff.mpr ⟨j, ?_, ?_⟩
    · rw [List.getElem?_take_of_lt hji, hj]
    · rwa [List.take_take, Nat.min_eq_left hji.le]
  · refine pairwise_concat_iff.mpr ⟨hpair, fun z hz => ?_⟩
    rcases List.mem_append.mp hz with hz | hz
    · exact ((pairwise_concat_iff.mp hpair).2 z hz).trans hlt
    · rw [List.mem_singleton.mp hz]
      exact hlt

/-- A subsequence that ends at an index is that element, or extends one. -/
theorem IncreasesTo.cases (h : IncreasesTo xs i n) :
    n = 1 ∨ ∃ j m y x, j < i ∧ xs[j]? = some y ∧ xs[i]? = some x ∧ y < x ∧ n = m + 1 ∧
      IncreasesTo xs j m := by
  obtain ⟨init, x, hi, hsub, hpair, rfl⟩ := h
  rcases List.eq_nil_or_concat' init with rfl | ⟨rest, y, rfl⟩
  · exact Or.inl rfl
  · obtain ⟨j, hj, hrest⟩ := sublist_concat_iff.mp hsub
    obtain ⟨hpair, hlt⟩ := pairwise_concat_iff.mp hpair
    have hji : j < i := by
      by_contra hcon
      rw [List.getElem?_take_eq_none (not_lt.mp hcon)] at hj
      exact Option.some_ne_none _ hj.symm
    rw [List.getElem?_take_of_lt hji] at hj
    rw [List.take_take, Nat.min_eq_left hji.le] at hrest
    refine Or.inr ⟨j, rest.length + 1, y, x, hji, hj, hi, hlt y (by simp), ?_, ?_⟩
    · rw [List.length_append, List.length_singleton]
    · exact ⟨rest, y, hj, hrest, hpair, rfl⟩

/-- One that ends at an index is an increasing subsequence. -/
theorem IncreasesTo.sublist (h : IncreasesTo xs i n) :
    ∃ sub : List α, sub.Sublist xs ∧ sub.Pairwise (· < ·) ∧ sub.length = n := by
  obtain ⟨init, x, hi, hsub, hpair, rfl⟩ := h
  refine ⟨init ++ [x], sublist_concat_iff.mpr ⟨i, hi, hsub⟩, hpair, ?_⟩
  rw [List.length_append, List.length_singleton]

/-- An increasing subsequence that is not empty ends at some index. -/
theorem exists_increasesTo {sub : List α} (hne : sub ≠ []) (hsub : sub.Sublist xs)
    (hpair : sub.Pairwise (· < ·)) : ∃ i < xs.length, IncreasesTo xs i sub.length := by
  obtain ⟨init, x, rfl⟩ := (List.eq_nil_or_concat' sub).resolve_left hne
  obtain ⟨i, hi, hinit⟩ := sublist_concat_iff.mp hsub
  refine ⟨i, (List.getElem?_eq_some_iff.mp hi).1, init, x, hi, hinit, hpair, ?_⟩
  rw [List.length_append, List.length_singleton]

end CxxPandora.Lib
