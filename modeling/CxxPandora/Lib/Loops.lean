import CxxPandora.Lib.Words

/-!
# Loops with an `int` counter

`for (int i = 0; i < n; i++)` over a size `n`. The counter overflows when the size is `2^31` or
more, unless the body ends the loop before (`forInt_eq_none`). Otherwise an invariant that every
pass keeps holds at the end (`forInt_invariant`), and a loop over the elements of a list is a fold
(`forInt_getElem?`).
-/

namespace CxxPandora.Lib

variable {σ : Type*} {n i : ℕ} {body : ℕ → σ → Option σ} {s : σ}

/-- The loop, from counter `i` on; `none` when a pass or the counter is undefined. -/
def forInt (n : ℕ) (body : ℕ → σ → Option σ) (i : ℕ) (s : σ) : Option σ :=
  if i < n then
    (body i s).bind fun s => (checkInt ((i : ℤ) + 1)).bind fun _ => forInt n body (i + 1) s
  else some s
termination_by n - i

/-- A loop is undefined when its end is beyond the range of its counter: when a pass that is
defined and does not overflow the counter continues with the next value of it. -/
theorem eq_none_of_overflow {ρ : Type*} (loop : ℕ → σ → Option ρ)
    (hpass : ∀ i s, i < 2^31 → loop i s = none ∨ i + 1 < 2^31 ∧ ∃ s', loop i s = loop (i + 1) s')
    (hi : i < 2^31) : loop i s = none := by
  induction hk : 2^31 - i generalizing i s with
  | zero => omega
  | succ k ih =>
    rcases hpass i s hi with hnone | ⟨hlt, s', hnext⟩
    · exact hnone
    · rw [hnext]
      exact ih hlt (by omega)

/-- The counter overflows when the size is not an `int`. -/
theorem forInt_eq_none (hi : i < 2^31) (hn : 2^31 ≤ n) : forInt n body i s = none := by
  refine eq_none_of_overflow (forInt n body) (fun i s hi => ?_) hi
  rw [forInt, if_pos (Nat.lt_of_lt_of_le hi hn)]
  cases body i s with
  | none => exact Or.inl rfl
  | some s' =>
    rw [Option.bind_some]
    rcases checkInt_succ_cases i with ⟨-, hcheck⟩ | ⟨hlt, hcheck⟩
    · rw [hcheck]
      exact Or.inl rfl
    · rw [hcheck]
      exact Or.inr ⟨hlt, s', rfl⟩

/-- A pass of the loop. -/
theorem forInt_succ (hi : i < n) (hn : n < 2^31) {s' : σ} (hbody : body i s = some s') :
    forInt n body i s = forInt n body (i + 1) s' := by
  rw [forInt, if_pos hi, hbody, Option.bind_some, checkInt_succ (by omega), Option.bind_some]

/-- What every pass keeps, and the counter with it, holds at the end. -/
theorem forInt_invariant {I : ℕ → σ → Prop} (hn : n < 2^31) (hi : i ≤ n) (h : I i s)
    (hbody : ∀ k s, k < n → I k s → ∃ s', body k s = some s' ∧ I (k + 1) s') :
    ∃ s', forInt n body i s = some s' ∧ I n s' := by
  induction hk : n - i generalizing i s with
  | zero =>
    obtain rfl : i = n := by omega
    rw [forInt, if_neg (Nat.lt_irrefl i)]
    exact ⟨s, rfl, h⟩
  | succ k ih =>
    have hlt : i < n := by omega
    obtain ⟨s', hs', h'⟩ := hbody i s hlt h
    rw [forInt_succ hlt hn hs']
    exact ih hlt h' (by omega)

/-- The loop over the elements of a list from an index on, when the list's length is an `int`. -/
theorem forInt_getElem?_drop {α : Type*} {f : σ → α → Option σ} {l : List α}
    (hl : l.length < 2^31) (hi : i ≤ l.length) (s : σ) :
    forInt l.length (fun i s => l[i]?.bind (f s)) i s = (l.drop i).foldlM f s := by
  induction hk : l.length - i generalizing i s with
  | zero =>
    have hend : l.drop i = [] := List.drop_of_length_le (by omega)
    rw [hend, forInt, if_neg (by omega)]
    rfl
  | succ k ih =>
    have hlt : i < l.length := by omega
    have hbody : l[i]?.bind (f s) = f s l[i] := by
      rw [List.getElem?_eq_getElem hlt, Option.bind_some]
    rw [List.drop_eq_getElem_cons hlt, List.foldlM_cons]
    cases hs : f s l[i] with
    | none =>
      rw [forInt, if_pos hlt, hbody, hs, Option.bind_none]
      exact (Option.bind_none _).symm
    | some s' =>
      rw [forInt_succ hlt hl (hbody.trans hs)]
      exact ih hlt s' (by omega)

/-- The loop over the elements of a list, when the list's length is an `int`, is a fold. -/
theorem forInt_getElem? {α : Type*} {f : σ → α → Option σ} {l : List α} (hl : l.length < 2^31)
    (s : σ) : forInt l.length (fun i s => l[i]?.bind (f s)) 0 s = l.foldlM f s :=
  forInt_getElem?_drop hl (Nat.zero_le _) s

end CxxPandora.Lib
