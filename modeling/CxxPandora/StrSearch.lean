import CxxPandora.Lib.Slices
import CxxPandora.Lib.Words
import Mathlib.Order.Bounds.Defs

/-!
# String search by brute force

`BruteForce` of `algorithms/str_search/main.cpp`. One loop advances both positions while the
characters are equal, and otherwise backs up to the next start. `SearchInv` is what holds in
between: no start before the current one is an occurrence, and the pattern matches so far from it.

The positions are `int`, so that they overflow in a long string. `search_finds_iff` shows that the
result is right exactly when that is not reached: for fewer than `2^31` characters, or for an
occurrence that ends before.
-/

namespace CxxPandora.StrSearch

open Lib

/-- The positions of `BruteForce`. -/
structure Cursor where
  /-- The position in the string. -/
  i : ℕ
  /-- The position in the pattern. -/
  j : ℕ
  /-- The match so far starts in the string. -/
  le : j ≤ i

/-- Where the match so far starts. -/
def Cursor.start (c : Cursor) : ℕ := c.i - c.j

/-- The loop of `BruteForce`; `none` when a position overflows. Either the match so far grows, or
its start advances. -/
def bruteForceLoop (str pat : List UInt8) (c : Cursor) : Option Cursor :=
  if _h : c.i < str.length ∧ c.j < pat.length then
    if str[c.i]? = pat[c.j]? then
      (checkInt ((c.i : ℤ) + 1)).bind fun _ => (checkInt ((c.j : ℤ) + 1)).bind fun _ =>
        bruteForceLoop str pat ⟨c.i + 1, c.j + 1, Nat.succ_le_succ c.le⟩
    else
      (checkInt ((c.i : ℤ) - c.j + 1)).bind fun _ =>
        bruteForceLoop str pat ⟨c.i - c.j + 1, 0, Nat.zero_le _⟩
  else some c
termination_by (str.length - c.start, pat.length - c.j)
decreasing_by
  · have hstart : c.i + 1 - (c.j + 1) = c.i - c.j := Nat.succ_sub_succ c.i c.j
    simp only [Cursor.start, hstart]
    exact Prod.Lex.right _ (by omega)
  · have hle := c.le
    exact Prod.Lex.left _ _ (by simp only [Cursor.start]; omega)

/-- `BruteForce`; `none` when it is undefined. -/
def BruteForce (str pat : List UInt8) : Option ℤ :=
  (bruteForceLoop str pat ⟨0, 0, le_rfl⟩).map fun c =>
    if c.j = pat.length then (c.i : ℤ) - c.j else -1

/-- The pattern is in the string from an index on. -/
def OccursAt (str pat : List UInt8) (k : ℕ) : Prop := pat <+: str.drop k

/-- The result is the least index at which the pattern occurs, and -1 exactly if there is none. -/
def Finds (str pat : List UInt8) : Prop :=
  ∃ v, BruteForce str pat = some v ∧
    ((∃ k : ℕ, v = k ∧ IsLeast {k | OccursAt str pat k} k) ∨ v = -1 ∧ ∀ k, ¬ OccursAt str pat k)

/-! ## The loop -/

/-- What holds between two comparisons. -/
structure SearchInv (str pat : List UInt8) (c : Cursor) : Prop where
  /-- The position is in the string. -/
  i_le : c.i ≤ str.length
  /-- The position is in the pattern. -/
  j_le : c.j ≤ pat.length
  /-- It is an `int`. -/
  i_lt : c.i < 2^31
  /-- The pattern does not occur before the start. -/
  not_before : ∀ k < c.start, ¬ OccursAt str pat k
  /-- It matches so far. -/
  matched : ∀ l < c.j, str[c.start + l]? = pat[l]?

variable {str pat : List UInt8} {c : Cursor} {k : ℕ}

/-- The pattern occurs where all of its characters are. -/
theorem occursAt_iff : OccursAt str pat k ↔ ∀ l < pat.length, str[k + l]? = pat[l]? := by
  unfold OccursAt
  rw [List.prefix_iff_getElem?]
  constructor
  · intro h l hl
    rw [← List.getElem?_drop, h l hl, List.getElem?_eq_getElem hl]
  · intro h l hl
    rw [List.getElem?_drop, h l hl, List.getElem?_eq_getElem hl]

/-- A pattern with characters left to match ends inside the string. -/
theorem OccursAt.le (h : OccursAt str pat k) (hne : 0 < pat.length) :
    k + pat.length ≤ str.length := by
  have hle := List.IsPrefix.length_le h
  rw [List.length_drop] at hle
  omega

/-- The invariant holds before the loop. -/
theorem SearchInv.init (str pat : List UInt8) : SearchInv str pat ⟨0, 0, le_rfl⟩ where
  i_le := Nat.zero_le _
  j_le := Nat.zero_le _
  i_lt := by
    dsimp only
    omega
  not_before k hk := absurd hk (Nat.not_lt_zero k)
  matched l hl := absurd hl (Nat.not_lt_zero l)

/-- The start of the match stays while it grows. -/
theorem start_succ (c : Cursor) (h : c.j + 1 ≤ c.i + 1) :
    Cursor.start ⟨c.i + 1, c.j + 1, h⟩ = c.start := Nat.succ_sub_succ c.i c.j

/-- Equal characters make the match grow. -/
theorem SearchInv.grow (h : SearchInv str pat c) (hi : c.i < str.length) (hj : c.j < pat.length)
    (heq : str[c.i]? = pat[c.j]?) (hmax : c.i + 1 < 2^31) :
    SearchInv str pat ⟨c.i + 1, c.j + 1, Nat.succ_le_succ c.le⟩ where
  i_le := hi
  j_le := hj
  i_lt := hmax
  not_before := by
    rw [start_succ]
    exact h.not_before
  matched l hl := by
    rw [start_succ]
    rcases Nat.lt_succ_iff_lt_or_eq.mp hl with hl | rfl
    · exact h.matched l hl
    · rw [Cursor.start, Nat.sub_add_cancel c.le, heq]

/-- Different characters show that the pattern does not occur at the start. -/
theorem SearchInv.advance (h : SearchInv str pat c) (hi : c.i < str.length)
    (hj : c.j < pat.length) (hne : str[c.i]? ≠ pat[c.j]?) (hmax : c.i - c.j + 1 < 2^31) :
    SearchInv str pat ⟨c.i - c.j + 1, 0, Nat.zero_le _⟩ where
  i_le := by
    dsimp only
    omega
  j_le := Nat.zero_le _
  i_lt := hmax
  not_before k hk hoccurs := by
    rcases Nat.lt_succ_iff_lt_or_eq.mp hk with hk | rfl
    · exact h.not_before k hk hoccurs
    · have heq := occursAt_iff.mp hoccurs c.j hj
      rw [Nat.sub_add_cancel c.le] at heq
      exact hne heq
  matched l hl := absurd hl (Nat.not_lt_zero l)

/-- How the loop ends: with a match, at the end of the string, or by an overflow. -/
def Ends (str pat : List UInt8) (r : Option Cursor) : Prop :=
  (∃ c, r = some c ∧ SearchInv str pat c ∧
      (c.j = pat.length ∨ c.j < pat.length ∧ c.i = str.length)) ∨
    r = none ∧ 2^31 ≤ str.length ∧ ∀ k, OccursAt str pat k → 2^31 ≤ k + pat.length

/-- An overflow comes when every occurrence ends beyond the range of `int`. -/
theorem SearchInv.overflow (h : SearchInv str pat c) (hi : c.i < str.length)
    (hj : c.j < pat.length) (hmax : c.i + 1 = 2^31) : Ends str pat none := by
  refine Or.inr ⟨rfl, by omega, fun k hoccurs => ?_⟩
  by_contra hlt
  -- Such an occurrence would start before the match does.
  have hle := c.le
  exact h.not_before k (by unfold Cursor.start; omega) hoccurs

/-- The loop ends. -/
theorem bruteForceLoop_ends (h : SearchInv str pat c) :
    Ends str pat (bruteForceLoop str pat c) := by
  induction c using bruteForceLoop.induct str pat with
  | case1 c hin heq ih =>
    rw [bruteForceLoop, dif_pos hin, if_pos heq]
    have hle := c.le
    have hlt := h.i_lt
    rcases checkInt_succ_cases c.i with ⟨hge, hi⟩ | ⟨hmax, hi⟩
    · rw [hi, Option.bind_none]
      exact h.overflow hin.1 hin.2 (by omega)
    · rw [hi, Option.bind_some, checkInt_succ (by omega), Option.bind_some]
      exact ih (h.grow hin.1 hin.2 heq hmax)
  | case2 c hin hne ih =>
    rw [bruteForceLoop, dif_pos hin, if_neg hne]
    have hle := c.le
    have hlt := h.i_lt
    by_cases hmax : c.i - c.j + 1 < 2^31
    · have hi : checkInt ((c.i : ℤ) - c.j + 1) = some ((c.i : ℤ) - c.j + 1) :=
        checkInt_eq (by omega) (by omega)
      rw [hi, Option.bind_some]
      exact ih (h.advance hin.1 hin.2 hne hmax)
    · rw [checkInt_eq_none (by omega), Option.bind_none]
      exact h.overflow hin.1 hin.2 (by omega)
  | case3 c hout =>
    rw [bruteForceLoop, dif_neg hout]
    have hi := h.i_le
    have hj := h.j_le
    exact Or.inl ⟨c, rfl, h, by omega⟩

/-! ## The result -/

/-- What is returned: the least index at which the pattern occurs, -1, or nothing when every
occurrence ends beyond the range of `int`. -/
theorem bruteForce_spec (str pat : List UInt8) :
    (∃ k : ℕ, BruteForce str pat = some (k : ℤ) ∧ IsLeast {k | OccursAt str pat k} k ∧
        k + pat.length < 2^31 ∧ k + pat.length ≤ str.length) ∨
      (BruteForce str pat = some (-1) ∧ str.length < 2^31 ∧ ∀ k, ¬ OccursAt str pat k) ∨
      (BruteForce str pat = none ∧ 2^31 ≤ str.length ∧
        ∀ k, OccursAt str pat k → 2^31 ≤ k + pat.length) := by
  unfold BruteForce
  rcases bruteForceLoop_ends (SearchInv.init str pat) with
    ⟨c, hrun, h, hend⟩ | ⟨hrun, hlong, hoccurs⟩
  · have hle := c.le
    have hi := h.i_le
    have hlt := h.i_lt
    rw [hrun, Option.map_some]
    rcases hend with hmatch | ⟨hj, hlast⟩
    · rw [if_pos hmatch]
      have hstart : ((c.start : ℕ) : ℤ) = c.i - c.j := Int.natCast_sub hle
      refine Or.inl ⟨c.start, congrArg some hstart.symm, ⟨?_, fun k hk => ?_⟩, ?_, ?_⟩
      · exact occursAt_iff.mpr (hmatch ▸ h.matched)
      · by_contra hcon
        exact h.not_before k (not_le.mp hcon) hk
      · unfold Cursor.start
        omega
      · unfold Cursor.start
        omega
    · rw [if_neg hj.ne]
      refine Or.inr (Or.inl ⟨rfl, by omega, fun k hk => ?_⟩)
      -- It would start before the match does, as the match goes up to the end.
      have hfit := hk.le (by omega)
      exact h.not_before k (by unfold Cursor.start; omega) hk
  · rw [hrun]
    exact Or.inr (Or.inr ⟨rfl, hlong, hoccurs⟩)

/-- The pattern is in the first `n` characters when it occurs at an index that far before their
end. -/
theorem isInfix_take_iff {n : ℕ} (hn : n ≤ str.length) :
    pat <:+: str.take n ↔ ∃ k, k + pat.length ≤ n ∧ OccursAt str pat k := by
  unfold OccursAt
  constructor
  · intro h
    obtain ⟨i, j, hij, hj, rfl⟩ := isInfix_iff_slice.mp h
    rw [List.length_take, Nat.min_eq_left hn] at hj
    rw [slice_take hj]
    exact ⟨i, by rw [length_slice (hj.trans hn)]; omega, List.take_prefix _ _⟩
  · rintro ⟨k, hle, hk⟩
    refine isInfix_iff_slice.mpr ⟨k, k + pat.length, Nat.le_add_right _ _, ?_, ?_⟩
    · rw [List.length_take, Nat.min_eq_left hn]
      exact hle
    · rw [slice_take hle, slice, Nat.add_sub_cancel_left]
      exact List.prefix_iff_eq_take.mp hk

/-- The result is right exactly for fewer than `2^31` characters, and when the pattern is in the
first `2^31 - 1`. -/
theorem search_finds_iff (str pat : List UInt8) :
    Finds str pat ↔ str.length < 2^31 ∨ pat <:+: str.take (2^31 - 1) := by
  have hcases := bruteForce_spec str pat
  constructor
  · rintro ⟨v, hrun, -⟩
    by_cases hlong : str.length < 2^31
    · exact Or.inl hlong
    · refine Or.inr ((isInfix_take_iff (by omega)).mpr ?_)
      rcases hcases with ⟨k, -, hleast, hlt, -⟩ | ⟨-, hshort, -⟩ | ⟨hnone, -⟩
      · exact ⟨k, by omega, hleast.1⟩
      · exact absurd hshort hlong
      · rw [hrun] at hnone
        exact absurd hnone (Option.some_ne_none _)
  · intro h
    rcases hcases with ⟨k, hrun, hleast, -⟩ | ⟨hrun, -, hnone⟩ | ⟨-, hlong, hoccurs⟩
    · exact ⟨k, hrun, Or.inl ⟨k, rfl, hleast⟩⟩
    · exact ⟨-1, hrun, Or.inr ⟨rfl, hnone⟩⟩
    · rcases h with hshort | hinfix
      · omega
      · obtain ⟨k, hle, hk⟩ := (isInfix_take_iff (by omega)).mp hinfix
        have hfar := hoccurs k hk
        omega

/-- In `2^31` zeros, a one is not looked for to the end. -/
theorem not_finds_one : ¬ ∀ str pat : List UInt8, Finds str pat := by
  intro hall
  obtain ⟨v, hrun, hv⟩ := hall (List.replicate (2^31) 0) [1]
  have hnot : ∀ k, ¬ OccursAt (List.replicate (2^31) 0) [1] k := by
    intro k hk
    have hmem : (1 : UInt8) ∈ List.replicate (2^31) 0 :=
      List.mem_of_mem_drop (hk.subset List.mem_cons_self)
    exact absurd (List.eq_of_mem_replicate hmem) (by decide)
  rcases bruteForce_spec (List.replicate (2^31) 0) [1] with
    ⟨k, -, hleast, -⟩ | ⟨-, hshort, -⟩ | ⟨hnone, -⟩
  · exact hnot k hleast.1
  · rw [List.length_replicate] at hshort
    exact Nat.lt_irrefl _ hshort
  · rw [hrun] at hnone
    exact Option.some_ne_none _ hnone

end CxxPandora.StrSearch
