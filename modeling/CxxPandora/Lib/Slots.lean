import Mathlib.Algebra.Order.Ring.Int
import Mathlib.Data.List.Range

/-!
# Slot tables

An array of `n` slots, each of which stores a number or is free (negative). `firstIn` is the loop
that looks for a slot, from one index up to another. A table that stores no number twice keeps to
that when a free slot takes a new number (`Distinct.store`), and when a slot is released
(`Distinct.release`); the numbers stored are then those before and the new one, or those before
without the one released.
-/

namespace CxxPandora.Lib

/-! ## The first slot -/

section FirstIn

variable {p : ℕ → Bool} {lo hi i : ℕ}

/-- The first index from `lo` on, and below `hi`, with the property `p`. -/
def firstIn (p : ℕ → Bool) (lo hi : ℕ) : Option ℕ := (List.range' lo (hi - lo)).find? p

/-- The index found is the first one. -/
theorem firstIn_eq_some (h : firstIn p lo hi = some i) :
    p i = true ∧ lo ≤ i ∧ i < hi ∧ ∀ j, lo ≤ j → j < i → p j = false := by
  obtain ⟨hp, hmem, hmin⟩ := List.find?_range'_eq_some.mp h
  obtain ⟨hlo, hhi⟩ := List.mem_range'_1.mp hmem
  refine ⟨hp, hlo, by omega, fun j hj hji => ?_⟩
  simpa using hmin j hj hji

/-- No index is found when none has the property. -/
theorem firstIn_eq_none : firstIn p lo hi = none ↔ ∀ j, lo ≤ j → j < hi → p j = false := by
  unfold firstIn
  rw [List.find?_range'_eq_none]
  constructor
  · intro h j hlo hhi
    simpa using h j hlo (by omega)
  · intro h j hlo hhi
    simpa using h j hlo (by omega)

/-- The first index, when it has the property. -/
theorem firstIn_of_true (hp : p lo = true) (h : lo < hi) : firstIn p lo hi = some lo := by
  cases hfirst : firstIn p lo hi with
  | none => exact absurd (hp.symm.trans (firstIn_eq_none.mp hfirst lo le_rfl h)) (by decide)
  | some i =>
    obtain ⟨-, hlo, -, hmin⟩ := firstIn_eq_some hfirst
    rcases Nat.eq_or_lt_of_le hlo with heq | hlt
    · rw [heq]
    · exact absurd (hp.symm.trans (hmin lo le_rfl hlt)) (by decide)

/-- There is no first index when no index is left. -/
theorem firstIn_of_le (h : hi ≤ lo) : firstIn p lo hi = none :=
  firstIn_eq_none.mpr fun _ hlo hhi => absurd (hlo.trans_lt hhi) (Nat.not_lt_of_le h)

end FirstIn

/-! ## What is stored -/

section Slots

variable {n : ℕ} {slots : ℕ → ℤ} {i : ℕ} {a b : ℕ}

/-- One of the `n` slots stores `a`. -/
def Stores (n : ℕ) (slots : ℕ → ℤ) (a : ℕ) : Prop := ∃ i < n, slots i = a

/-- No two of the `n` slots store the same number. -/
def Distinct (n : ℕ) (slots : ℕ → ℤ) : Prop :=
  ∀ i < n, ∀ j < n, 0 ≤ slots i → slots i = slots j → i = j

/-- A free slot takes a number. -/
theorem stores_store (hi : i < n) (hfree : slots i < 0) :
    Stores n (Function.update slots i (a : ℤ)) b ↔ b = a ∨ Stores n slots b := by
  constructor
  · rintro ⟨j, hj, hb⟩
    by_cases hji : j = i
    · rw [hji, Function.update_self] at hb
      exact Or.inl (by omega)
    · rw [Function.update_of_ne hji] at hb
      exact Or.inr ⟨j, hj, hb⟩
  · rintro (rfl | ⟨j, hj, hb⟩)
    · exact ⟨i, hi, Function.update_self ..⟩
    · have hji : j ≠ i := by
        rintro rfl
        omega
      exact ⟨j, hj, by rw [Function.update_of_ne hji, hb]⟩

/-- A slot that takes a number stored nowhere leaves the numbers distinct. -/
theorem Distinct.store (h : Distinct n slots) (hnew : ¬Stores n slots a) :
    Distinct n (Function.update slots i (a : ℤ)) := by
  intro j hj k hk hpos heq
  by_cases hji : j = i
  · by_cases hki : k = i
    · rw [hji, hki]
    · rw [hji, Function.update_self, Function.update_of_ne hki] at heq
      exact absurd ⟨k, hk, heq.symm⟩ hnew
  · rw [Function.update_of_ne hji] at hpos heq
    by_cases hki : k = i
    · rw [hki, Function.update_self] at heq
      exact absurd ⟨j, hj, heq⟩ hnew
    · rw [Function.update_of_ne hki] at heq
      exact h j hj k hk hpos heq

/-- A slot that is not free after a release is another one, and was not free. -/
theorem of_release_nonneg {j : ℕ} (h : 0 ≤ Function.update slots i (-1) j) :
    j ≠ i ∧ 0 ≤ slots j := by
  have hji : j ≠ i := by
    rintro rfl
    rw [Function.update_self] at h
    omega
  rw [Function.update_of_ne hji] at h
  exact ⟨hji, h⟩

/-- A slot that stored `a`, which no other slot does, is released. -/
theorem Distinct.stores_release (h : Distinct n slots) (hi : i < n) (ha : slots i = a) :
    Stores n (Function.update slots i (-1)) b ↔ b ≠ a ∧ Stores n slots b := by
  constructor
  · rintro ⟨j, hj, hb⟩
    obtain ⟨hji, -⟩ := of_release_nonneg (hb ▸ Int.natCast_nonneg b)
    rw [Function.update_of_ne hji] at hb
    refine ⟨?_, j, hj, hb⟩
    rintro rfl
    exact hji (h j hj i hi (by omega) (by rw [hb, ha]))
  · rintro ⟨hne, j, hj, hb⟩
    have hji : j ≠ i := by
      rintro rfl
      omega
    exact ⟨j, hj, by rw [Function.update_of_ne hji, hb]⟩

/-- A released slot leaves the numbers distinct. -/
theorem Distinct.release (h : Distinct n slots) : Distinct n (Function.update slots i (-1)) := by
  intro j hj k hk hpos heq
  obtain ⟨hki, -⟩ := of_release_nonneg (heq ▸ hpos)
  obtain ⟨hji, hpos⟩ := of_release_nonneg hpos
  rw [Function.update_of_ne hji, Function.update_of_ne hki] at heq
  exact h j hj k hk hpos heq

end Slots

end CxxPandora.Lib
