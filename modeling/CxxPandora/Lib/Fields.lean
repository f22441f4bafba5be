import CxxPandora.Lib.Bytes

/-!
# Decimal fields of a text format

A number that is printed with a minimal width (`padLeft` of its `decimal`), and `atol`, which reads
a number from the start of a text and stops at the first byte that does not belong to it. What is
printed is read back, whether it fills a field (`atol_padLeft_decimal`), is followed by a separator
(`atol_decimal_append`), or has a sign (`atol_decimalInt`). A `CString` is a sequence of bytes
without a NUL.
-/

namespace CxxPandora.Lib

/-- The characters of a string that a NUL ends. -/
@[ext]
structure CString where
  /-- The characters. -/
  chars : List UInt8
  /-- None of them is the NUL. -/
  zero_notMem : 0 ∉ chars

/-- Strings are compared by their characters: `strcmp`. -/
instance instDecidableEqCString : DecidableEq CString := fun s t =>
  decidable_of_iff (s.chars = t.chars) CString.ext_iff.symm

/-- `printf` with a minimal width. -/
def padLeft (w : ℕ) (s : List UInt8) : List UInt8 := List.replicate (w - s.length) 32 ++ s

/-- `atol`: white space, an optional sign, and digits up to the first byte that is none. -/
def atol (s : List UInt8) : ℤ :=
  let signed := splitSign (s.dropWhile isSpace)
  let value := digitsValue (signed.2.takeWhile isDigit)
  if signed.1 then -(value : ℤ) else value

/-- The decimal numeral of an integer: `%d`. -/
def decimalInt (z : ℤ) : List UInt8 := if z < 0 then 45 :: decimal z.natAbs else decimal z.natAbs

variable {s t : List UInt8} {n w : ℕ}

/-- White space in front of a number does not matter. -/
theorem atol_append_of_isSpace (h : ∀ c ∈ s, isSpace c = true) : atol (s ++ t) = atol t := by
  unfold atol
  rw [List.dropWhile_append_of_pos h]

/-- Behind the digits of a number comes the end of the text, or a byte that is no digit. -/
def EndsNumber (t : List UInt8) : Prop := ∀ c ∈ t.head?, isDigit c = false

/-- A number that is followed by something else. -/
theorem atol_decimal_append (n : ℕ) (h : EndsNumber t) : atol (decimal n ++ t) = n := by
  have hsign : splitSign ((decimal n ++ t).dropWhile isSpace) = (false, decimal n ++ t) := by
    cases hn : decimal n with
    | nil => exact absurd hn (decimal_ne_nil n)
    | cons c s =>
      apply splitSign_dropWhile_of_isDigit
      apply isDigit_of_mem_decimal (n := n)
      rw [hn]
      exact List.mem_cons_self
  have hdigits : (decimal n ++ t).takeWhile isDigit = decimal n := by
    rw [List.takeWhile_append_of_pos fun c hc => isDigit_of_mem_decimal hc]
    cases t with
    | nil => rw [List.takeWhile_nil, List.append_nil]
    | cons c t =>
      have hc : isDigit c = false := h c rfl
      rw [List.takeWhile_cons_of_neg (by rw [hc]; exact Bool.false_ne_true), List.append_nil]
  unfold atol
  simp only [hsign, hdigits, digitsValue_decimal, Bool.false_eq_true, if_false]

/-- A number alone. -/
theorem atol_decimal (n : ℕ) : atol (decimal n) = n := by
  have h := atol_decimal_append n (t := []) fun c hc => absurd hc (Option.not_mem_none c)
  rwa [List.append_nil] at h

/-- An integer alone. -/
theorem atol_decimalInt (z : ℤ) : atol (decimalInt z) = z := by
  unfold decimalInt
  split_ifs with hneg
  · have hspace : (45 :: decimal z.natAbs).dropWhile isSpace = 45 :: decimal z.natAbs :=
      List.dropWhile_cons_of_neg (by decide)
    have hdigits : (decimal z.natAbs).takeWhile isDigit = decimal z.natAbs :=
      List.takeWhile_eq_self_iff.mpr fun c hc => isDigit_of_mem_decimal hc
    unfold atol
    simp only [hspace, splitSign, hdigits, digitsValue_decimal, if_true]
    omega
  · rw [atol_decimal]
    omega

/-- What the numeral of an integer consists of. -/
theorem isDigit_of_mem_decimalInt {z : ℤ} {c : UInt8} (hc : c ∈ decimalInt z) :
    c = 45 ∨ isDigit c = true := by
  unfold decimalInt at hc
  split_ifs at hc
  · exact (List.mem_cons.mp hc).imp_right isDigit_of_mem_decimal
  · exact Or.inr (isDigit_of_mem_decimal hc)

/-- The numeral of an integer has a digit. -/
theorem decimalInt_ne_nil (z : ℤ) : decimalInt z ≠ [] := by
  unfold decimalInt
  split_ifs
  · exact List.cons_ne_nil _ _
  · exact decimal_ne_nil _

/-- A number in a field. -/
theorem atol_padLeft_decimal (w n : ℕ) : atol (padLeft w (decimal n)) = n := by
  unfold padLeft
  rw [atol_append_of_isSpace, atol_decimal]
  intro c hc
  rw [List.eq_of_mem_replicate hc]
  rfl

/-- A field has its width when the number is small enough. -/
theorem length_padLeft_decimal (hw : 0 < w) (h : n < 10 ^ w) :
    (padLeft w (decimal n)).length = w := by
  have hle := length_decimal_le hw h
  rw [padLeft, List.length_append, List.length_replicate]
  omega

/-- The digits of a number are no byte outside `0` to `9`. -/
theorem notMem_decimal {c : UInt8} (h : isDigit c = false) (n : ℕ) : c ∉ decimal n := fun hc =>
  Bool.false_ne_true (h.symm.trans (isDigit_of_mem_decimal hc))

end CxxPandora.Lib
