import Mathlib.Algebra.BigOperators.Intervals

/-!
# A relay with a buffer

Bytes from a source of a given length go through a buffer. In each pass up to `r k` bytes go from
the source into the buffer, and then up to `e k` from the buffer on, as many as there are. `relayed`
is how many have come through after some passes, and `le_relayed_iff` says how many that is: as many
as the first passes take in and the later ones let out, however the passes are divided.
-/

namespace CxxPandora.Lib

section Relay

variable (length : ℕ) (r e : ℕ → ℕ)

/-- How many bytes the first passes have taken in. -/
def taken : ℕ → ℕ
  | 0 => 0
  | k + 1 => taken k + min (r k) (length - taken k)

/-- How many bytes have come through in the first passes. -/
def relayed : ℕ → ℕ
  | 0 => 0
  | k + 1 => relayed k + min (e k) (taken length r (k + 1) - relayed k)

/-- The counts of the first `k` passes carry `n` bytes: however they are divided, the first ones can
take in, and the later ones let out, as many together. -/
def Carries (k n : ℕ) : Prop :=
  ∀ j ≤ k, n ≤ ∑ i ∈ Finset.range j, r i + ∑ i ∈ Finset.Ico j k, e i

variable {length r e}

/-- The passes take in what their counts sum up to, or the whole source. -/
theorem taken_eq (k : ℕ) : taken length r k = min length (∑ i ∈ Finset.range k, r i) := by
  induction k with
  | zero => simp [taken]
  | succ k ih =>
    rw [taken, ih, Finset.sum_range_succ]
    omega

/-- No more comes through than is taken in. -/
theorem relayed_le_taken (k : ℕ) : relayed length r e k ≤ taken length r k := by
  induction k with
  | zero => exact Nat.le_refl 0
  | succ k ih =>
    have hle : taken length r k ≤ taken length r (k + 1) := Nat.le_add_right _ _
    rw [relayed]
    omega

/-- One pass more carries what it takes in with the others, and lets out of what they carry. -/
theorem carries_succ_iff (k n : ℕ) :
    Carries r e (k + 1) n ↔ n ≤ ∑ i ∈ Finset.range (k + 1), r i ∧ Carries r e k (n - e k) := by
  constructor
  · intro h
    refine ⟨?_, fun j hj => ?_⟩
    · have hlast := h (k + 1) (Nat.le_refl _)
      rwa [Finset.Ico_self, Finset.sum_empty, Nat.add_zero] at hlast
    · have hj' := h j (Nat.le_succ_of_le hj)
      rw [Finset.sum_Ico_succ_top hj] at hj'
      omega
  · rintro ⟨hlast, hcarries⟩ j hj
    rcases Nat.lt_or_ge k j with hlt | hle
    · obtain rfl : j = k + 1 := Nat.le_antisymm hj hlt
      rwa [Finset.Ico_self, Finset.sum_empty, Nat.add_zero]
    · have hj' := hcarries j hle
      rw [Finset.sum_Ico_succ_top hle]
      omega

/-- As many bytes come through as the source has and the counts carry. -/
theorem le_relayed_iff {n : ℕ} (hn : n ≤ length) (k : ℕ) :
    n ≤ relayed length r e k ↔ Carries r e k n := by
  induction k generalizing n with
  | zero =>
    constructor
    · intro h j _
      exact Nat.le_trans h (Nat.zero_le _)
    · intro h
      simpa [relayed] using h 0 (Nat.le_refl 0)
  | succ k ih =>
    have hle : relayed length r e k ≤ taken length r k := relayed_le_taken k
    have hmono : taken length r k ≤ taken length r (k + 1) := Nat.le_add_right _ _
    have htaken : taken length r (k + 1) = min length (∑ i ∈ Finset.range (k + 1), r i) :=
      taken_eq (k + 1)
    rw [carries_succ_iff, ← ih (Nat.le_trans (Nat.sub_le n _) hn), relayed]
    omega

end Relay

end CxxPandora.Lib
