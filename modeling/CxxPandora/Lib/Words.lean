import Mathlib.Algebra.Group.Int.Defs
import Mathlib.Algebra.Group.Nat.Defs
import Mathlib.Data.Int.Basic
import Mathlib.Tactic.SplitIfs

/-!
# Fixed-width integers of C and C++

Unsigned arithmetic wraps, signed arithmetic is undefined when it overflows, and a conversion to a
signed type wraps. A `size_t` is a natural number below `2^64` here, and an `int` an integer from
`intMin` to `intMax`.
-/

namespace CxxPandora.Lib

/-! ## `size_t` -/

/-- The sum of two `size_t` values. -/
def sizeAdd (a b : ℕ) : ℕ := (a + b) % 2^64

/-- The difference of two `size_t` values. -/
def sizeSub (a b : ℕ) : ℕ := (a + (2^64 - b % 2^64)) % 2^64

/-- A sum below `2^64` does not wrap. -/
theorem sizeAdd_eq {a b : ℕ} (h : a + b < 2^64) : sizeAdd a b = a + b := Nat.mod_eq_of_lt h

/-- A sum that may wrap, less a value at most as large, is exact when the result is below `2^64`. -/
theorem sizeSub_sizeAdd {a b c : ℕ} (hc : c ≤ a + b) (h : a + b - c < 2^64) :
    sizeSub (sizeAdd a b) c = a + b - c := by
  unfold sizeSub sizeAdd
  omega

/-- A difference of two `size_t` values in order is exact. -/
theorem sizeSub_eq {a b : ℕ} (hb : b ≤ a) (ha : a < 2^64) : sizeSub a b = a - b := by
  unfold sizeSub
  omega

/-- The conversion of a signed value to `size_t`, modulo `2^64`. -/
def toSize (z : ℤ) : ℕ := (z % 2^64).toNat

/-- A value that a `size_t` holds is converted to itself. -/
theorem toSize_natCast {n : ℕ} (h : n < 2^64) : toSize n = n := by
  unfold toSize
  omega

/-! ## `char` -/

/-- The value of a `char`, which is signed. -/
def charVal (c : UInt8) : ℤ := c.toInt8.toInt

/-- A `char` holds `-128` to `127`. -/
theorem charVal_bounds (c : UInt8) : -128 ≤ charVal c ∧ charVal c ≤ 127 := by
  have hle := c.toInt8.le_toInt
  have hlt := c.toInt8.toInt_lt
  unfold charVal
  omega

/-- The conversion of a `char` to 64 unsigned bits extends its sign. -/
def charToUInt64 (c : UInt8) : UInt64 := UInt64.ofInt (charVal c)

/-- The converted value is the `char`'s, modulo `2^64`. -/
theorem toNat_charToUInt64 (c : UInt8) : ((charToUInt64 c).toNat : ℤ) = charVal c % 2^64 := by
  rw [charToUInt64, UInt64.ofInt, UInt64.toNat_ofNat']
  omega

/-! ## `int` -/

/-- The least `int`. -/
def intMin : ℤ := -2^31

/-- The greatest `int`. -/
def intMax : ℤ := 2^31 - 1

/-- The conversion to `int`, modulo `2^32`. -/
def toInt (z : ℤ) : ℤ := z.bmod (2^32)

/-- A value that an `int` holds is converted to itself. -/
theorem toInt_eq {z : ℤ} (h : intMin ≤ z) (h' : z ≤ intMax) : toInt z = z := by
  unfold intMin at h
  unfold intMax at h'
  exact Int.bmod_eq_of_le (by omega) (by omega)

/-- A nonnegative value that an `int` holds is converted to itself. -/
theorem toInt_of_nonneg {z : ℤ} (h : 0 ≤ z) (h' : z ≤ intMax) : toInt z = z :=
  toInt_eq (by unfold intMin; omega) h'

/-- The result of `int` arithmetic, undefined when it overflows. -/
def checkInt (z : ℤ) : Option ℤ := if intMin ≤ z ∧ z ≤ intMax then some z else none

/-- A defined result is exact. -/
theorem eq_of_checkInt {z z' : ℤ} (h : checkInt z = some z') : z' = z := by
  unfold checkInt at h
  split_ifs at h
  exact (Option.some.inj h).symm

/-- A result in the range of `int` is defined. -/
theorem checkInt_eq {z : ℤ} (h : -2^31 ≤ z) (h' : z < 2^31) : checkInt z = some z :=
  if_pos ⟨h, Int.le_sub_one_of_lt h'⟩

/-- A nonnegative result that an `int` holds is defined. -/
theorem checkInt_of_nonneg {z : ℤ} (h : 0 ≤ z) (h' : z ≤ intMax) : checkInt z = some z :=
  checkInt_eq (by omega) (Int.lt_of_le_sub_one h')

/-- A result above the range of `int` is undefined. -/
theorem checkInt_eq_none {z : ℤ} (h : 2^31 ≤ z) : checkInt z = none :=
  if_neg fun hbounds => Int.not_lt.mpr h (Int.lt_of_le_sub_one hbounds.2)

/-- The next value of a counter is defined when an `int` holds it. -/
theorem checkInt_succ {n : ℕ} (h : n + 1 < 2^31) : checkInt ((n : ℤ) + 1) = some ((n : ℤ) + 1) :=
  checkInt_eq (by omega) (by omega)

/-- The next value of a counter is beyond the range of `int` and undefined, or within it. -/
theorem checkInt_succ_cases (n : ℕ) :
    2^31 ≤ n + 1 ∧ checkInt ((n : ℤ) + 1) = none ∨
      n + 1 < 2^31 ∧ checkInt ((n : ℤ) + 1) = some ((n : ℤ) + 1) := by
  rcases Nat.lt_or_ge (n + 1) (2^31) with hlt | hge
  · exact Or.inr ⟨hlt, checkInt_succ hlt⟩
  · exact Or.inl ⟨hge, checkInt_eq_none (by omega)⟩

/-! ## `short` -/

/-- The conversion to `short`, modulo `2^16`. -/
def toShort (z : ℤ) : ℤ := z.bmod (2^16)

/-! ## `long long` -/

/-- The least `long long`. -/
def longMin : ℤ := -2^63

/-- The greatest `long long`. -/
def longMax : ℤ := 2^63 - 1

/-- The result of `long long` arithmetic, undefined when it overflows. -/
def checkLong (z : ℤ) : Option ℤ := if longMin ≤ z ∧ z ≤ longMax then some z else none

/-- A defined result is exact. -/
theorem eq_of_checkLong {z z' : ℤ} (h : checkLong z = some z') : z' = z := by
  unfold checkLong at h
  split_ifs at h
  exact (Option.some.inj h).symm

end CxxPandora.Lib
