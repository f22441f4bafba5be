import Mathlib.Algebra.BigOperators.Group.Finset.Piecewise
import Mathlib.Algebra.Order.BigOperators.Group.Finset
import Mathlib.Data.Fintype.Basic

/-!
# What a number of parties have together

A sum over all parties. When one of them changes, the sum changes as much as it does (`sum_add_eq`,
`sum_update_add`). What two parties have is no more than what all have (`add_le_sum`).
-/

namespace CxxPandora.Lib

variable {τ M : Type*} [Fintype τ] [DecidableEq τ]

/-- Two sums that differ in the summand of one party. -/
theorem sum_add_eq [AddCommMonoid M] {f g : τ → M} (t : τ) (h : ∀ t', t' ≠ t → f t' = g t') :
    ∑ t', f t' + g t = ∑ t', g t' + f t := by
  have herase : ∑ t' ∈ Finset.univ.erase t, f t' = ∑ t' ∈ Finset.univ.erase t, g t' :=
    Finset.sum_congr rfl fun t' ht' => h t' (Finset.ne_of_mem_erase ht')
  calc ∑ t', f t' + g t = f t + ∑ t' ∈ Finset.univ.erase t, f t' + g t := by
        rw [Finset.add_sum_erase _ f (Finset.mem_univ t)]
    _ = g t + ∑ t' ∈ Finset.univ.erase t, g t' + f t := by
        rw [herase, add_comm (f t), add_right_comm, add_comm _ (g t)]
    _ = ∑ t', g t' + f t := by rw [Finset.add_sum_erase _ g (Finset.mem_univ t)]

/-- A sum after one party has got something else. -/
theorem sum_update_add [AddCommMonoid M] (f : τ → M) (t : τ) (a : M) :
    ∑ t', Function.update f t a t' + f t = ∑ t', f t' + a := by
  have hsum := sum_add_eq (f := Function.update f t a) (g := f) t
    fun t' ht' => Function.update_of_ne ht' a f
  rwa [Function.update_self] at hsum

/-- What two parties have. -/
theorem add_le_sum (f : τ → ℕ) {t t' : τ} (hne : t ≠ t') : f t + f t' ≤ ∑ t', f t' :=
  calc f t + f t' ≤ f t + ∑ t' ∈ Finset.univ.erase t, f t' :=
        Nat.add_le_add_left (Finset.single_le_sum (f := f) (fun _ _ => Nat.zero_le _)
          (Finset.mem_erase.mpr ⟨hne.symm, Finset.mem_univ t'⟩)) _
    _ = ∑ t', f t' := Finset.add_sum_erase _ f (Finset.mem_univ t)

end CxxPandora.Lib
