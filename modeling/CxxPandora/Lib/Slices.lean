import Mathlib.Data.Finset.Card
import Mathlib.Data.List.Basic
import Mathlib.Data.List.Perm.Subperm

/-!
# Slices of a list

`slice s i j` is the contiguous part of a list from index `i` up to index `j`: what a window over
the list holds that grows at its end and shrinks at its start (`slice_succ`, `slice_eq_cons`). The
slices are the infixes of the list (`isInfix_iff_slice`).

A slice covers a list when it has every element at least as often (`List.Subperm`). `met t w`
counts the elements of `t` that `w` has often enough. It changes by one when an element comes in or
goes out at exact equality (`met_concat`, `met_cons`), and `w` covers `t` when it is the number of
different elements of `t` (`met_eq_card_iff`).
-/

namespace CxxPandora.Lib

variable {α : Type*} {s t w : List α} {a : α} {i j i' j' : ℕ}

/-- The elements from index `i` up to index `j`. -/
def slice (s : List α) (i j : ℕ) : List α := (s.drop i).take (j - i)

/-- The length of a slice. -/
theorem length_slice (hj : j ≤ s.length) : (slice s i j).length = j - i := by
  rw [slice, List.length_take, List.length_drop]
  omega

/-- A slice with nothing in it. -/
theorem slice_self (s : List α) (i : ℕ) : slice s i i = [] := by
  rw [slice, Nat.sub_self, List.take_zero]

/-- The whole list. -/
theorem slice_length (s : List α) : slice s 0 s.length = s := by
  rw [slice, Nat.sub_zero, List.drop_zero, List.take_length]

/-- The slices at the start are the prefixes. -/
theorem slice_zero (s : List α) (j : ℕ) : slice s 0 j = s.take j := by
  rw [slice, Nat.sub_zero, List.drop_zero]

/-- An element comes in at the end. -/
theorem slice_succ (hij : i ≤ j) (hj : s[j]? = some a) :
    slice s i (j + 1) = slice s i j ++ [a] := by
  have hget : (s.drop i)[j - i]? = some a := by
    rw [List.getElem?_drop, Nat.add_sub_cancel' hij, hj]
  rw [slice, Nat.succ_sub hij, List.take_add_one, hget]
  rfl

/-- An element is at the start. -/
theorem slice_eq_cons (hij : i < j) (hi : s[i]? = some a) :
    slice s i j = a :: slice s (i + 1) j := by
  obtain ⟨hlt, rfl⟩ := List.getElem?_eq_some_iff.mp hi
  rw [slice, List.drop_eq_getElem_cons hlt, show j - i = (j - (i + 1)) + 1 by omega,
    List.take_succ_cons]
  rfl

/-- A slice is part of every wider one. -/
theorem slice_sublist (hi : i' ≤ i) (hj : j ≤ j') :
    (slice s i j).Sublist (slice s i' j') := by
  have hdrop : slice s i j = (slice s i' j).drop (i - i') := by
    rw [slice, slice, List.drop_take, List.drop_drop, Nat.add_sub_cancel' hi,
      show j - i' - (i - i') = j - i by omega]
  have htake : slice s i' j = (slice s i' j').take (j - i') := by
    rw [slice, slice, List.take_take, Nat.min_eq_left (by omega)]
  rw [hdrop, htake]
  exact (List.drop_sublist _ _).trans (List.take_sublist _ _)

/-- The slices of a list are its infixes. -/
theorem isInfix_iff_slice :
    w <:+: s ↔ ∃ i j, i ≤ j ∧ j ≤ s.length ∧ w = slice s i j := by
  constructor
  · rintro ⟨pre, post, rfl⟩
    refine ⟨pre.length, pre.length + w.length, Nat.le_add_right _ _, ?_, ?_⟩
    · simp only [List.length_append]
      omega
    · rw [slice, Nat.add_sub_cancel_left, List.append_assoc, List.drop_left, List.take_left]
  · rintro ⟨i, j, -, -, rfl⟩
    exact (List.take_prefix _ _).isInfix.trans (List.drop_suffix _ _).isInfix

/-- An element of a slice is at one of its indices. -/
theorem mem_slice : a ∈ slice s i j ↔ ∃ k, i ≤ k ∧ k < j ∧ s[k]? = some a := by
  rw [List.mem_iff_getElem?]
  constructor
  · rintro ⟨n, hn⟩
    have hlt : n < j - i := by
      by_contra hcon
      rw [slice, List.getElem?_take_eq_none (not_lt.mp hcon)] at hn
      exact Option.some_ne_none _ hn.symm
    rw [slice, List.getElem?_take_of_lt hlt, List.getElem?_drop] at hn
    exact ⟨i + n, by omega, by omega, hn⟩
  · rintro ⟨k, hik, hkj, hk⟩
    refine ⟨k - i, ?_⟩
    rw [slice, List.getElem?_take_of_lt (by omega), List.getElem?_drop, Nat.add_sub_cancel' hik, hk]

/-- The slices of a prefix. -/
theorem slice_take {n : ℕ} (hj : j ≤ n) : slice (s.take n) i j = slice s i j := by
  rw [slice, slice, List.drop_take, List.take_take, Nat.min_eq_left (by omega)]

/-! ## Covering -/

variable [DecidableEq α]

/-- How many of the different elements of `t` are in `w` as often as in `t`. -/
def met (t w : List α) : ℕ := (t.toFinset.filter fun a => t.count a ≤ w.count a).card

/-- Only how often an element is there matters. -/
theorem met_congr {w' : List α} (h : w.Perm w') : met t w = met t w' := by
  unfold met
  congr 1
  exact Finset.filter_congr fun a _ => by rw [h.count_eq]

/-- An element at the start is the last one needed, or changes nothing. -/
theorem met_cons (t w : List α) (a : α) :
    met t (a :: w) = met t w + if a ∈ t ∧ t.count a = w.count a + 1 then 1 else 0 := by
  unfold met
  split_ifs with h
  · have hinsert : (t.toFinset.filter fun b => t.count b ≤ (a :: w).count b) =
        insert a (t.toFinset.filter fun b => t.count b ≤ w.count b) := by
      ext b
      rw [Finset.mem_insert, Finset.mem_filter, Finset.mem_filter, List.mem_toFinset]
      rcases eq_or_ne b a with rfl | hne
      · rw [List.count_cons_self]
        exact ⟨fun _ => Or.inl rfl, fun _ => ⟨h.1, by omega⟩⟩
      · rw [List.count_cons_of_ne hne.symm]
        exact ⟨Or.inr, fun hb => hb.resolve_left hne⟩
    have hnot : a ∉ t.toFinset.filter fun b => t.count b ≤ w.count b := by
      rw [Finset.mem_filter]
      omega
    rw [hinsert, Finset.card_insert_of_notMem hnot]
  · rw [Nat.add_zero]
    congr 1
    refine Finset.filter_congr fun b hb => ?_
    rw [List.mem_toFinset] at hb
    rcases eq_or_ne b a with rfl | hne
    · have hcount : t.count b ≠ w.count b + 1 := fun heq => h ⟨hb, heq⟩
      rw [List.count_cons_self]
      omega
    · rw [List.count_cons_of_ne hne.symm]

/-- An element at the end is the last one needed, or changes nothing. -/
theorem met_concat (t w : List α) (a : α) :
    met t (w ++ [a]) = met t w + if a ∈ t ∧ t.count a = w.count a + 1 then 1 else 0 := by
  rw [met_congr (List.perm_append_singleton a w), met_cons]

/-- Everything is met when the list is covered. -/
theorem met_eq_card_iff : met t w = t.toFinset.card ↔ t.Subperm w := by
  have hfilter : met t w = t.toFinset.card ↔ ∀ a ∈ t.toFinset, t.count a ≤ w.count a :=
    Finset.card_filter_eq_iff
  simp only [hfilter, List.subperm_ext_iff, List.mem_toFinset]

/-- No more elements are met than are there. -/
theorem met_le_length (t w : List α) : met t w ≤ w.length := by
  have hsub : (t.toFinset.filter fun a => t.count a ≤ w.count a) ⊆ w.toFinset := by
    intro a ha
    rw [Finset.mem_filter, List.mem_toFinset] at ha
    rw [List.mem_toFinset, ← List.count_pos_iff]
    exact (List.count_pos_iff.mpr ha.1).trans_le ha.2
  exact (Finset.card_le_card hsub).trans (List.toFinset_card_le w)

end CxxPandora.Lib
