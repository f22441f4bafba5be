import CxxPandora.Lib.Words
import Mathlib.Data.List.Induction
import Mathlib.Tactic.Ring

/-!
# Rolling hashes

The hash of a sequence is often its value as a polynomial (`polyHash`), so that the hash of a window
gives the hash of the next one: the contribution of the element that leaves is taken off, and the
one that comes in is appended (`polyHash_cons`, `polyHash_concat`). For any hash and any way to roll
it, `rolled` is the hash after some rolls along a sequence, and `rolled_eq_iff` reduces "every
rolled hash is the hash of its window" to the single rolls.
-/

namespace CxxPandora.Lib

/-! ## Polynomial hashes -/

section Poly

variable {R : Type*} [Semiring R]

/-- The value of a sequence of digits in base `b`, most significant first, by Horner's rule. -/
def polyHash (b : R) (xs : List R) : R := xs.foldl (fun h x => h * b + x) 0

/-- The empty sequence has the value zero. -/
@[simp]
theorem polyHash_nil (b : R) : polyHash b [] = 0 := rfl

/-- Horner's rule: one more digit at the end. -/
theorem polyHash_concat (b : R) (xs : List R) (y : R) :
    polyHash b (xs ++ [y]) = polyHash b xs * b + y := by
  unfold polyHash
  rw [List.foldl_append]
  rfl

end Poly

section CommPoly

variable {R : Type*} [CommSemiring R]

/-- The value of a sequence that is followed by another one. -/
theorem polyHash_append (b : R) (xs ys : List R) :
    polyHash b (xs ++ ys) = polyHash b xs * b^ys.length + polyHash b ys := by
  induction ys using List.reverseRecOn with
  | nil => simp
  | append_singleton ys y ih =>
    rw [← List.append_assoc, polyHash_concat, ih, polyHash_concat, List.length_append,
      List.length_singleton, pow_succ]
    ring

/-- The contribution of the first digit. -/
theorem polyHash_cons (b x : R) (xs : List R) :
    polyHash b (x :: xs) = x * b^xs.length + polyHash b xs := by
  have h := polyHash_append b [x] xs
  have hx : polyHash b [x] = x := by simp [polyHash]
  rwa [hx] at h

end CommPoly

/-! ## Characters as digits -/

/-- The value of some characters, which are signed, as a numeral in base 256. -/
def charsValue (str : List UInt8) : ℤ := polyHash 256 (str.map charVal)

/-- The value of one more character. -/
theorem charsValue_concat (str : List UInt8) (c : UInt8) :
    charsValue (str ++ [c]) = charsValue str * 256 + charVal c := by
  rw [charsValue, List.map_append, List.map_singleton, polyHash_concat]
  rfl

/-- The value of some characters is the contribution of the first one and the value of the rest. -/
theorem charsValue_cons (c : UInt8) (str : List UInt8) :
    charsValue (c :: str) = charVal c * 256^str.length + charsValue str := by
  rw [charsValue, List.map_cons, polyHash_cons, List.length_map]
  rfl

/-! ## Rolling along a sequence -/

section Roll

variable {α η : Type*}

/-- The `w` elements from index `i` on. -/
def window (w : ℕ) (s : List α) (i : ℕ) : List α := (s.drop i).take w

/-- A window inside the sequence is full. -/
theorem length_window {w i : ℕ} {s : List α} (h : i + w ≤ s.length) :
    (window w s i).length = w := by
  rw [window, List.length_take, List.length_drop]
  omega

/-- A window is the element that leaves it first, and the rest. -/
theorem window_eq_cons (w : ℕ) {i : ℕ} {s : List α} (h : i < s.length) :
    window (w + 1) s i = s[i] :: window w s (i + 1) := by
  rw [window, window, List.drop_eq_getElem_cons h, List.take_succ_cons]

/-- A window is the rest, and the element that came last. -/
theorem window_eq_concat {w i : ℕ} {s : List α} (h : i + w < s.length) :
    window (w + 1) s i = window w s i ++ [s[i + w]] := by
  have hlt : w < (s.drop i).length := by
    rw [List.length_drop]
    omega
  rw [window, window, List.take_succ_eq_append_getElem hlt, List.getElem_drop]

/-- The hash after `i` rolls along a sequence with a window of `w` elements; `none` once a roll has
gone wrong. -/
def rolled (roll : η → α → α → Option η) (w : ℕ) (s : List α) (h₀ : Option η) : ℕ → Option η
  | 0 => h₀
  | i + 1 =>
    (rolled roll w s h₀ i).bind fun h =>
      s[i]?.bind fun left => s[i + w]?.bind fun right => roll h left right

/-- One more roll inside the sequence. -/
theorem rolled_succ (roll : η → α → α → Option η) {w i : ℕ} {s : List α} {h₀ : Option η} {h : η}
    (hi : i + w < s.length) (hr : rolled roll w s h₀ i = some h) :
    rolled roll w s h₀ (i + 1) = roll h (s[i]) (s[i + w]) := by
  have hleft : s[i]? = some s[i] := List.getElem?_eq_getElem (by omega)
  have hright : s[i + w]? = some s[i + w] := List.getElem?_eq_getElem hi
  rw [rolled, hr, hleft, hright]
  rfl

/-- Every rolled hash is the hash of its window exactly when every single roll takes the hash of a
window to the hash of the next one. -/
theorem rolled_eq_iff (hash : List α → η) (roll : η → α → α → Option η) (w : ℕ) (s : List α) :
    (∀ i, i + (w + 1) ≤ s.length →
        rolled roll (w + 1) s (some (hash (window (w + 1) s 0))) i =
          some (hash (window (w + 1) s i))) ↔
      ∀ i (h : i + (w + 1) < s.length),
        roll (hash (s[i] :: window w s (i + 1))) s[i] s[i + (w + 1)] =
          some (hash (window w s (i + 1) ++ [s[i + (w + 1)]])) := by
  -- The window before a roll and the one after it.
  have hcons : ∀ i (h : i + (w + 1) < s.length),
      window (w + 1) s i = s[i] :: window w s (i + 1) := fun i h => window_eq_cons w (by omega)
  have hconcat : ∀ i (h : i + (w + 1) < s.length),
      window (w + 1) s (i + 1) = window w s (i + 1) ++ [s[i + (w + 1)]] := by
    intro i h
    rw [window_eq_concat (show i + 1 + w < s.length by omega)]
    congr 3
    omega
  constructor
  · intro hall i h
    have hnext := hall (i + 1) (by omega)
    rwa [rolled_succ roll h (hall i (by omega)), hcons i h, hconcat i h] at hnext
  · intro hstep i
    induction i with
    | zero => exact fun _ => rfl
    | succ i ih =>
      intro hi
      have h : i + (w + 1) < s.length := by omega
      rw [rolled_succ roll h (ih (by omega)), hcons i h, hconcat i h]
      exact hstep i h

end Roll

end CxxPandora.Lib
