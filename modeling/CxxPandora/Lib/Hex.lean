import CxxPandora.Lib.Bytes
import CxxPandora.Lib.Words

/-!
# Hexadecimal numerals

The number that a sequence of digits denotes, the most significant first (`positional`), for the
digits of a numeral and for bytes. `strtol16` is what `strtol` makes of a string in base 16, and
`strtol16_eq` says that it reads a short numeral. Two digits for each byte (`hexOf`, with the
characters for the digits) are read back byte by byte (`ofPairs_hexOf`). A numeral that is read so
keeps its number when no digit is left over, or when there are only zeros before it
(`bytesNumber_ofPairs_iff`).
-/

namespace CxxPandora.Lib

/-! ## Positional numbers -/

section Positional

variable {α : Type*} {b : ℕ} {f : α → ℕ} {x : α} {l l' : List α}

/-- The number with the given digits, the most significant first. -/
def positional (b : ℕ) (f : α → ℕ) (l : List α) : ℕ := Nat.ofDigits b (l.map f).reverse

/-- The number of no digits. -/
theorem positional_nil : positional b f [] = 0 := rfl

/-- More digits on the right. -/
theorem positional_append :
    positional b f (l ++ l') = positional b f l * b^l'.length + positional b f l' := by
  rw [positional, List.map_append, List.reverse_append, Nat.ofDigits_append, List.length_reverse,
    List.length_map, Nat.add_comm, Nat.mul_comm]
  rfl

/-- The number of one digit. -/
theorem positional_singleton : positional b f [x] = f x := Nat.ofDigits_singleton

/-- A digit on the left. -/
theorem positional_cons : positional b f (x :: l) = f x * b^l.length + positional b f l := by
  rw [← List.singleton_append, positional_append, positional_singleton]

/-- A number is below the power of the base that the number of its digits says. -/
theorem positional_lt (hb : 1 < b) (hl : ∀ x ∈ l, f x < b) : positional b f l < b^l.length := by
  have hlt := Nat.ofDigits_lt_base_pow_length (l := (l.map f).reverse) hb (by
    intro d hd
    obtain ⟨x, hx, rfl⟩ := List.mem_map.mp (List.mem_reverse.mp hd)
    exact hl x hx)
  rwa [List.length_reverse, List.length_map] at hlt

/-- A number is zero when all digits are. -/
theorem positional_eq_zero_iff (hb : 0 < b) : positional b f l = 0 ↔ ∀ x ∈ l, f x = 0 := by
  induction l with
  | nil => simp [positional_nil]
  | cons x l ih =>
    have hpow : b^l.length ≠ 0 := (Nat.pow_pos hb).ne'
    rw [positional_cons, Nat.add_eq_zero_iff, Nat.mul_eq_zero, or_iff_left hpow, ih,
      List.forall_mem_cons]

end Positional

/-! ## Digits -/

/-- `0` to `9`, `A` to `F`, or `a` to `f`. -/
def isHexDigit (c : UInt8) : Bool :=
  decide (48 ≤ c.toNat ∧ c.toNat ≤ 57 ∨ 65 ≤ c.toNat ∧ c.toNat ≤ 70 ∨
    97 ≤ c.toNat ∧ c.toNat ≤ 102)

/-- The value of a digit. -/
def hexVal (c : UInt8) : ℕ :=
  if c.toNat ≤ 57 then c.toNat - 48 else if c.toNat ≤ 70 then c.toNat - 55 else c.toNat - 87

/-- The digit of a value, in lower case. -/
def hexDigit (d : ℕ) : UInt8 := if d < 10 then UInt8.ofNat (48 + d) else UInt8.ofNat (87 + d)

/-- The digit of a value, in upper case. -/
def upperHexDigit (d : ℕ) : UInt8 := if d < 10 then UInt8.ofNat (48 + d) else UInt8.ofNat (55 + d)

/-- The characters are digits for the values below 16. -/
def IsDigitOf (digit : ℕ → UInt8) : Prop :=
  ∀ d < 16, isHexDigit (digit d) = true ∧ hexVal (digit d) = d

/-- The number that a numeral denotes. -/
def hexNumber (ds : List UInt8) : ℕ := positional 16 hexVal ds

/-- The number that bytes denote. -/
def bytesNumber (bytes : List UInt8) : ℕ := positional 256 UInt8.toNat bytes

/-- All characters are digits. -/
def IsHex (ds : List UInt8) : Prop := ∀ c ∈ ds, isHexDigit c = true

/-- It can be decided whether all characters are digits. -/
instance (ds : List UInt8) : Decidable (IsHex ds) := List.decidableBAll _ ds

/-- A digit is below 16. -/
theorem hexVal_lt {c : UInt8} (h : isHexDigit c = true) : hexVal c < 16 := by
  rw [isHexDigit, decide_eq_true_eq] at h
  unfold hexVal
  split_ifs <;> omega

/-- The only digit for zero. -/
theorem hexVal_eq_zero_iff {c : UInt8} (h : isHexDigit c = true) : hexVal c = 0 ↔ c = 48 := by
  rw [isHexDigit, decide_eq_true_eq] at h
  rw [← UInt8.toNat_inj]
  have h48 : (48 : UInt8).toNat = 48 := rfl
  unfold hexVal
  split_ifs <;> omega

/-- The digits in lower case. -/
theorem isDigitOf_hexDigit : IsDigitOf hexDigit := by
  unfold IsDigitOf
  decide

/-- The digits in upper case. -/
theorem isDigitOf_upperHexDigit : IsDigitOf upperHexDigit := by
  unfold IsDigitOf
  decide

/-- The number of a numeral is below a power of 16. -/
theorem hexNumber_lt {ds : List UInt8} (h : IsHex ds) : hexNumber ds < 16^ds.length :=
  positional_lt (by decide) fun c hc => hexVal_lt (h c hc)

/-! ## `strtol` -/

/-- The `0x` that may come before the digits in base 16, with a digit after it, is skipped. -/
def skipPrefix : List UInt8 → List UInt8
  | 48 :: x :: c :: s =>
    if (x = 120 ∨ x = 88) ∧ isHexDigit c = true then c :: s else 48 :: x :: c :: s
  | s => s

/-- `strtol` in base 16: skip white space, an optional sign and an optional `0x`, and read the
digits that follow, up to the first character that is none. The result is clamped to a `long`. -/
def strtol16 (s : List UInt8) : ℤ :=
  let signed := splitSign (s.dropWhile isSpace)
  let value : ℤ := hexNumber ((skipPrefix signed.2).takeWhile isHexDigit)
  if signed.1 then max longMin (-value) else min longMax value

/-- There is nothing to skip before digits. -/
theorem skipPrefix_eq {ds : List UInt8} (h : IsHex ds) : skipPrefix ds = ds := by
  unfold skipPrefix
  split
  · rename_i x c s
    have hx := h x (by simp)
    refine if_neg fun hcond => ?_
    rcases hcond.1 with rfl | rfl
    · exact absurd hx (by decide)
    · exact absurd hx (by decide)
  · rfl

/-- A hexadecimal digit is neither white space nor a sign. -/
theorem splitSign_dropWhile_of_isHexDigit {c : UInt8} {s : List UInt8} (h : isHexDigit c = true) :
    splitSign ((c :: s).dropWhile isSpace) = (false, c :: s) := by
  have h32 : c ≠ 32 := by rintro rfl; exact absurd h (by decide)
  have h45 : c ≠ 45 := by rintro rfl; exact absurd h (by decide)
  have h43 : c ≠ 43 := by rintro rfl; exact absurd h (by decide)
  rw [isHexDigit, decide_eq_true_eq] at h
  have hsp : isSpace c = false := by
    simp only [isSpace, Bool.or_eq_false_iff, beq_eq_false_iff_ne, Bool.and_eq_false_iff,
      decide_eq_false_iff_not]
    exact ⟨h32, Or.inr (by omega)⟩
  rw [List.dropWhile_cons_of_neg (by rw [hsp]; exact Bool.false_ne_true)]
  simp [splitSign, h45, h43]

/-- `strtol` reads a numeral of at most 15 digits. -/
theorem strtol16_eq {ds : List UInt8} (hne : ds ≠ []) (h : IsHex ds) (hlen : ds.length ≤ 15) :
    strtol16 ds = hexNumber ds := by
  obtain ⟨c, s, rfl⟩ := List.exists_cons_of_ne_nil hne
  have hlt := hexNumber_lt h
  have hpow : 16^(c :: s).length ≤ 16^15 := Nat.pow_le_pow_right (by decide) hlen
  have htake : (c :: s).takeWhile isHexDigit = c :: s := List.takeWhile_eq_self_iff.mpr h
  rw [strtol16, splitSign_dropWhile_of_isHexDigit (h c List.mem_cons_self)]
  dsimp only
  rw [skipPrefix_eq h, htake, if_neg Bool.false_ne_true]
  unfold longMax
  omega

/-! ## Two digits for a byte -/

variable {digit : ℕ → UInt8}

/-- Two digits for each byte. -/
def hexOf (digit : ℕ → UInt8) (bytes : List UInt8) : List UInt8 :=
  bytes.flatMap fun b => [digit (b.toNat / 16), digit (b.toNat % 16)]

/-- A byte for every two digits, and one for a digit that is left over. -/
def ofPairs : List UInt8 → List UInt8
  | c :: d :: ds => UInt8.ofNat (hexNumber [c, d]) :: ofPairs ds
  | [c] => [UInt8.ofNat (hexNumber [c])]
  | [] => []

/-- The digits of one byte and more. -/
theorem hexOf_cons (b : UInt8) (bytes : List UInt8) :
    hexOf digit (b :: bytes) =
      digit (b.toNat / 16) :: digit (b.toNat % 16) :: hexOf digit bytes := rfl

/-- The digits of bytes are digits. -/
theorem isHex_hexOf (hdigit : IsDigitOf digit) (bytes : List UInt8) :
    IsHex (hexOf digit bytes) := by
  intro c hc
  obtain ⟨b, -, hb⟩ := List.mem_flatMap.mp hc
  have hlt := b.toNat_lt
  rcases List.mem_pair.mp hb with rfl | rfl
  · exact (hdigit _ (by omega)).1
  · exact (hdigit _ (by omega)).1

/-- The number of digits. -/
theorem length_hexOf (digit : ℕ → UInt8) (bytes : List UInt8) :
    (hexOf digit bytes).length = 2 * bytes.length := by
  induction bytes with
  | nil => rfl
  | cons b bytes ih =>
    rw [hexOf_cons, List.length_cons, List.length_cons, ih, List.length_cons]
    omega

/-- The number of two digits. -/
theorem hexNumber_pair (c d : UInt8) : hexNumber [c, d] = hexVal c * 16 + hexVal d := by
  rw [hexNumber, positional_cons, positional_singleton]
  rfl

/-- Bytes are read back from their digits. -/
theorem ofPairs_hexOf (hdigit : IsDigitOf digit) (bytes : List UInt8) :
    ofPairs (hexOf digit bytes) = bytes := by
  induction bytes with
  | nil => rfl
  | cons b bytes ih =>
    have hlt := b.toNat_lt
    have hnumber : hexNumber [digit (b.toNat / 16), digit (b.toNat % 16)] = b.toNat := by
      rw [hexNumber_pair, (hdigit _ (by omega)).2, (hdigit _ (by omega)).2]
      omega
    rw [hexOf_cons, ofPairs, ih, hnumber, UInt8.ofNat_toNat]

/-- A byte that is read from two digits. -/
theorem toNat_ofNat_hexNumber {ds : List UInt8} (h : IsHex ds) (hlen : ds.length ≤ 2) :
    (UInt8.ofNat (hexNumber ds)).toNat = hexNumber ds := by
  have hlt := hexNumber_lt h
  have hpow : 16^ds.length ≤ 16^2 := Nat.pow_le_pow_right (by decide) hlen
  exact UInt8.toNat_ofNat_of_lt' (by unfold UInt8.size; omega)

/-- Two more digits leave as many over. -/
theorem even_length_cons_cons {c d : UInt8} {ds : List UInt8} :
    Even (c :: d :: ds).length ↔ Even ds.length := by
  rw [List.length_cons, List.length_cons, Nat.even_add_one, Nat.even_add_one, not_not]

/-- When no digit is left over, the bytes have the number of the numeral. -/
theorem bytesNumber_ofPairs_of_even {ds : List UInt8} (h : IsHex ds) (heven : Even ds.length) :
    2 * (ofPairs ds).length = ds.length ∧ bytesNumber (ofPairs ds) = hexNumber ds := by
  induction ds using ofPairs.induct with
  | case1 c d ds ih =>
    have hds : IsHex ds := fun x hx => h x (by simp [hx])
    have hpair : IsHex [c, d] := fun x hx => h x (by
      rcases List.mem_pair.mp hx with rfl | rfl
      · simp
      · simp)
    rw [even_length_cons_cons] at heven
    obtain ⟨hlen, hnumber⟩ := ih hds heven
    refine ⟨by rw [ofPairs, List.length_cons, List.length_cons, List.length_cons]; omega, ?_⟩
    have hsplit : hexNumber (c :: d :: ds) = hexNumber [c, d] * 16^ds.length + hexNumber ds :=
      positional_append (l := [c, d])
    have hpow : (256 : ℕ)^(ofPairs ds).length = 16^ds.length := by
      rw [← hlen, Nat.pow_mul]
    rw [ofPairs, bytesNumber, positional_cons, toNat_ofNat_hexNumber hpair (le_refl 2), hpow,
      ← bytesNumber, hnumber, hsplit]
  | case2 c => exact absurd heven Nat.not_even_one
  | case3 => exact ⟨rfl, rfl⟩

/-- The number of the digits of bytes is that of the bytes. -/
theorem hexNumber_hexOf (hdigit : IsDigitOf digit) (bytes : List UInt8) :
    hexNumber (hexOf digit bytes) = bytesNumber bytes := by
  have heven : Even (hexOf digit bytes).length := by
    rw [length_hexOf]
    exact even_two_mul _
  rw [← (bytesNumber_ofPairs_of_even (isHex_hexOf hdigit bytes) heven).2, ofPairs_hexOf hdigit]

/-- A digit that is left over is a byte of its own. -/
theorem ofPairs_append_singleton {ds : List UInt8} (heven : Even ds.length) (c : UInt8) :
    ofPairs (ds ++ [c]) = ofPairs ds ++ [UInt8.ofNat (hexNumber [c])] := by
  induction ds using ofPairs.induct with
  | case1 c d ds ih =>
    rw [even_length_cons_cons] at heven
    rw [List.cons_append, List.cons_append, ofPairs, ih heven, ofPairs, List.cons_append]
  | case2 c => exact absurd heven Nat.not_even_one
  | case3 => rfl

/-- The bytes have the number of the numeral when no digit is left over, or when all digits before
the last are zero. -/
theorem bytesNumber_ofPairs_iff {ds : List UInt8} (h : IsHex ds) :
    bytesNumber (ofPairs ds) = hexNumber ds ↔ Even ds.length ∨ ∀ c ∈ ds.dropLast, c = 48 := by
  by_cases heven : Even ds.length
  · exact iff_of_true (bytesNumber_ofPairs_of_even h heven).2 (Or.inl heven)
  · have hne : ds ≠ [] := by
      rintro rfl
      exact heven Even.zero
    obtain ⟨init, c, rfl⟩ : ∃ init c, ds = init ++ [c] :=
      ⟨ds.dropLast, ds.getLast hne, (List.dropLast_append_getLast hne).symm⟩
    have hinit : IsHex init := fun x hx => h x (List.mem_append_left _ hx)
    have hc : IsHex [c] := fun x hx => h x (List.mem_append_right _ hx)
    have hodd := heven
    rw [List.length_append, List.length_singleton, Nat.even_add_one, not_not] at heven
    have hzero : hexNumber init = 0 ↔ ∀ x ∈ init, x = 48 := by
      rw [hexNumber, positional_eq_zero_iff (by decide)]
      exact forall₂_congr fun x hx => hexVal_eq_zero_iff (hinit x hx)
    have hnumber : hexNumber (init ++ [c]) = hexNumber init * 16 + hexNumber [c] :=
      positional_append
    have hbytes : bytesNumber (ofPairs (init ++ [c])) = hexNumber init * 256 + hexNumber [c] := by
      rw [ofPairs_append_singleton heven, bytesNumber, positional_append, positional_singleton,
        toNat_ofNat_hexNumber hc one_le_two, ← bytesNumber,
        (bytesNumber_ofPairs_of_even hinit heven).2]
      rfl
    rw [hbytes, hnumber, List.dropLast_concat, ← hzero, or_iff_right hodd]
    omega

end CxxPandora.Lib
