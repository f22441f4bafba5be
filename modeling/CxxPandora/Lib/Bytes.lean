import Mathlib.Data.List.TakeWhile
import Mathlib.Data.Nat.Digits.Lemmas

/-!
# Byte strings, decimal numerals, and their parser

`ByteString` is a contiguous sequence of bytes, whose size is a `size_t`. `decimal` is what
`std::to_string` prints for a natural number, and `stoull` what `std::stoull` makes of a string.
`stoull_decimal` is the round trip.
-/

namespace CxxPandora.Lib

/-- A sequence of bytes in memory: its size is a `size_t`. -/
@[ext]
structure ByteString where
  /-- The bytes. -/
  bytes : List UInt8
  /-- Their number is a `size_t`. -/
  size_lt : bytes.length < 2^64

/-- The sequence with the given bytes, or `none` when no object is that large. -/
def ByteString.ofBytes (bytes : List UInt8) : Option ByteString :=
  if h : bytes.length < 2^64 then some ⟨bytes, h⟩ else none

/-- The sequence that `ofBytes` makes has the given bytes. -/
theorem ByteString.bytes_of_ofBytes {bytes : List UInt8} {s : ByteString}
    (h : ByteString.ofBytes bytes = some s) : s.bytes = bytes := by
  unfold ofBytes at h
  split_ifs at h with hlt
  rw [← Option.some.inj h]

/-- `ofBytes` makes every sequence that fits. -/
theorem ByteString.ofBytes_eq {bytes : List UInt8} (h : bytes.length < 2^64) :
    ByteString.ofBytes bytes = some ⟨bytes, h⟩ := dif_pos h

/-- At most `n` bytes from an index on: `substr`. -/
def ByteString.substr (s : ByteString) (pos n : ℕ) : ByteString where
  bytes := (s.bytes.drop pos).take n
  size_lt := by
    have h := s.size_lt
    rw [List.length_take, List.length_drop]
    omega

/-- The bytes of a part. -/
theorem ByteString.bytes_substr (s : ByteString) (pos n : ℕ) :
    (s.substr pos n).bytes = (s.bytes.drop pos).take n := rfl

/-- `operator[]` of a string: at the size it is the NUL that ends it, and past the size it is
undefined. -/
def charAt (s : List UInt8) (i : ℕ) : Option UInt8 := (s ++ [0])[i]?

/-- A character of the string. -/
theorem charAt_of_lt {s : List UInt8} {i : ℕ} (h : i < s.length) : charAt s i = some s[i] := by
  rw [charAt, List.getElem?_append_left h, List.getElem?_eq_getElem h]

/-- The first index of a byte is the length of what precedes it. -/
theorem idxOf?_append_cons {c : UInt8} {pre : List UInt8} (h : c ∉ pre) (post : List UInt8) :
    (pre ++ c :: post).idxOf? c = some pre.length := by
  induction pre with
  | nil => simp [List.idxOf?_cons]
  | cons a pre ih =>
    rw [List.mem_cons, not_or] at h
    have hne : (a == c) = false := beq_false_of_ne (Ne.symm h.1)
    rw [List.cons_append, List.idxOf?_cons, hne, ih h.2]
    rfl

/-! ## C strings -/

/-- The bytes before the first NUL: a C string. -/
def cstr (mem : List UInt8) : List UInt8 := mem.takeWhile (· != 0)

/-- The C string at the start of an object; `none` when the object has no NUL, so that a reader runs
past its end. -/
def readCStr (mem : List UInt8) : Option (List UInt8) := if 0 ∈ mem then some (cstr mem) else none

/-- The object after its first bytes have been overwritten. -/
def overwrite (mem bytes : List UInt8) : List UInt8 := bytes ++ mem.drop bytes.length

/-- A C string has no NUL. -/
theorem zero_notMem_cstr (mem : List UInt8) : 0 ∉ cstr mem :=
  fun h => absurd (List.mem_takeWhile_imp h) (by decide)

/-- Bytes without a NUL are a C string. -/
theorem cstr_eq_self {mem : List UInt8} (h : 0 ∉ mem) : cstr mem = mem := by
  rw [cstr, List.takeWhile_eq_self_iff]
  rintro c hc
  rw [bne_iff_ne]
  rintro rfl
  exact h hc

/-- Bytes are their own C string exactly when they have no NUL. -/
theorem cstr_eq_self_iff {mem : List UInt8} : cstr mem = mem ↔ 0 ∉ mem :=
  ⟨fun heq => heq ▸ zero_notMem_cstr mem, cstr_eq_self⟩

/-- A NUL right after some bytes ends their C string. -/
theorem cstr_append_zero (mem rest : List UInt8) : cstr (mem ++ 0 :: rest) = cstr mem := by
  induction mem with
  | nil => rfl
  | cons c mem ih =>
    unfold cstr at ih ⊢
    rw [List.cons_append, List.takeWhile_cons, List.takeWhile_cons, ih]

/-- The C string of an object that starts with bytes that have no NUL. -/
theorem cstr_append_of_notMem {mem : List UInt8} (h : 0 ∉ mem) (rest : List UInt8) :
    cstr (mem ++ rest) = mem ++ cstr rest := by
  refine List.takeWhile_append_of_pos fun c hc => ?_
  rw [bne_iff_ne]
  rintro rfl
  exact h hc

/-- The C string of an object that starts with bytes that have a NUL. -/
theorem cstr_append_of_mem {mem : List UInt8} (h : 0 ∈ mem) (rest : List UInt8) :
    cstr (mem ++ rest) = cstr mem := by
  obtain ⟨pre, post, rfl⟩ := List.append_of_mem h
  rw [List.append_assoc, List.cons_append, cstr_append_zero, cstr_append_zero]

/-- A C string is a part of its object. -/
theorem cstr_eq_take (mem : List UInt8) : cstr mem = mem.take (cstr mem).length :=
  List.prefix_iff_eq_take.mp (List.takeWhile_prefix _)

/-- An object with a NUL is its C string, the NUL, and the rest. -/
theorem eq_cstr_append {mem : List UInt8} (h : 0 ∈ mem) : ∃ rest, mem = cstr mem ++ 0 :: rest := by
  induction mem with
  | nil => exact absurd h List.not_mem_nil
  | cons c mem ih =>
    by_cases hc : c = 0
    · exact ⟨mem, by rw [hc]; rfl⟩
    · obtain ⟨rest, hrest⟩ := ih ((List.mem_cons.mp h).resolve_left (Ne.symm hc))
      have hcons : cstr (c :: mem) = c :: cstr mem :=
        List.takeWhile_cons_of_pos (bne_iff_ne.mpr hc)
      refine ⟨rest, ?_⟩
      rw [hcons, List.cons_append, ← hrest]

/-- A C string in an object with a NUL is shorter than the object. -/
theorem length_cstr_lt {mem : List UInt8} (h : 0 ∈ mem) : (cstr mem).length < mem.length := by
  obtain ⟨pre, post, rfl⟩ := List.append_of_mem h
  have hle := (List.takeWhile_prefix (p := (· != (0 : UInt8))) (l := pre)).length_le
  rw [cstr_append_zero, List.length_append, List.length_cons]
  unfold cstr
  omega

/-- A C string that ends among the first `n` bytes has fewer bytes. -/
theorem length_cstr_lt_of_mem_take {mem : List UInt8} {n : ℕ} (h : 0 ∈ mem.take n) :
    (cstr mem).length < n := by
  have hlt := length_cstr_lt h
  have hle : (mem.take n).length ≤ n := List.length_take_le n mem
  rw [← List.take_append_drop n mem, cstr_append_of_mem h]
  omega

/-! ## Decimal numerals -/

/-- The digits `0` to `9`. -/
def isDigit (c : UInt8) : Bool := decide (48 ≤ c.toNat) && decide (c.toNat ≤ 57)

/-- The digit of a number below ten. -/
def digit (d : ℕ) : UInt8 := UInt8.ofNat (48 + d)

/-- The decimal numeral of a natural number, without leading zeros: `std::to_string`. -/
def decimal (n : ℕ) : List UInt8 :=
  if n = 0 then [digit 0] else (Nat.digits 10 n).reverse.map digit

/-- The number that a sequence of digits denotes in base ten. -/
def digitsValue (ds : List UInt8) : ℕ := ds.foldl (fun a c => 10 * a + (c.toNat - 48)) 0

/-- The byte of a digit. -/
theorem toNat_digit {d : ℕ} (h : d < 10) : (digit d).toNat = 48 + d := by
  rw [digit, UInt8.toNat_ofNat', Nat.mod_eq_of_lt (by omega)]

/-- The digit of a number below ten is a digit. -/
theorem isDigit_digit {d : ℕ} (h : d < 10) : isDigit (digit d) = true := by
  rw [isDigit, toNat_digit h, Bool.and_eq_true, decide_eq_true_eq, decide_eq_true_eq]
  omega

/-- A numeral consists of digits. -/
theorem isDigit_of_mem_decimal {n : ℕ} {c : UInt8} (h : c ∈ decimal n) : isDigit c = true := by
  unfold decimal at h
  split_ifs at h with hn
  · rw [List.mem_singleton] at h
    rw [h]
    exact isDigit_digit (by omega)
  · obtain ⟨d, hd, rfl⟩ := List.mem_map.mp h
    exact isDigit_digit (Nat.digits_lt_base (by omega) (List.mem_reverse.mp hd))

/-- A numeral has a digit. -/
theorem decimal_ne_nil (n : ℕ) : decimal n ≠ [] := by
  unfold decimal
  split_ifs with hn
  · exact List.cons_ne_nil _ _
  · rw [ne_eq, List.map_eq_nil_iff, List.reverse_eq_nil_iff, ← ne_eq,
      Nat.digits_ne_nil_iff_ne_zero]
    exact hn

/-- The numeral of a number below `10^k` has at most `k` digits. -/
theorem length_decimal_le {n k : ℕ} (hk : 0 < k) (h : n < 10^k) : (decimal n).length ≤ k := by
  unfold decimal
  split_ifs with hn
  · exact hk
  · rw [List.length_map, List.length_reverse]
    exact (Nat.digits_length_le_iff (by omega) n).mpr h

/-- The value of digits, least significant first. -/
theorem foldr_digit {ds : List ℕ} (h : ∀ d ∈ ds, d < 10) :
    ds.foldr (fun d a => 10 * a + ((digit d).toNat - 48)) 0 = Nat.ofDigits 10 ds := by
  induction ds with
  | nil => rfl
  | cons d ds ih =>
    have hd : d < 10 := h d List.mem_cons_self
    rw [List.foldr_cons, ih fun e he => h e (List.mem_cons_of_mem d he), Nat.ofDigits_cons,
      toNat_digit hd]
    omega

/-- The numeral of a number denotes it. -/
theorem digitsValue_decimal (n : ℕ) : digitsValue (decimal n) = n := by
  unfold digitsValue decimal
  split_ifs with hn
  · rw [hn]
    rfl
  · rw [List.foldl_map, List.foldl_reverse]
    have hlt : ∀ d ∈ Nat.digits 10 n, d < 10 := fun d hd => Nat.digits_lt_base (by omega) hd
    exact (foldr_digit hlt).trans (Nat.ofDigits_digits 10 n)

/-! ## `std::stoull` -/

/-- The white space that a numeral may start with: `isspace` of the C locale. -/
def isSpace (c : UInt8) : Bool := c == 32 || (decide (9 ≤ c.toNat) && decide (c.toNat ≤ 13))

/-- The sign of a numeral, `true` for a minus, and what follows it. -/
def splitSign : List UInt8 → Bool × List UInt8
  | 45 :: s => (true, s)
  | 43 :: s => (false, s)
  | s => (false, s)

/-- `std::stoull`: skip white space, read an optional sign, and read the digits that follow, up to
the first byte that is none. It throws (`none`) when there is no digit, and when the number does not
fit in 64 bits. A minus negates modulo `2^64`. -/
def stoull (s : List UInt8) : Option ℕ :=
  let signed := splitSign (s.dropWhile isSpace)
  let digits := signed.2.takeWhile isDigit
  let value := digitsValue digits
  if digits = [] ∨ 2^64 ≤ value then none
  else some (if signed.1 then (2^64 - value) % 2^64 else value)

/-- What `stoull` reads fits in 64 bits. -/
theorem stoull_lt {s : List UInt8} {n : ℕ} (h : stoull s = some n) : n < 2^64 := by
  simp only [stoull, Option.ite_none_left_eq_some, Option.some.injEq, not_or, not_le] at h
  obtain ⟨⟨-, hvalue⟩, rfl⟩ := h
  split_ifs with hsign
  · exact Nat.mod_lt _ (by omega)
  · exact hvalue

/-- A digit is not white space. -/
theorem isSpace_of_isDigit {c : UInt8} (h : isDigit c = true) : isSpace c = false := by
  rw [isDigit, Bool.and_eq_true, decide_eq_true_eq, decide_eq_true_eq] at h
  have h32 : c ≠ 32 := by rintro rfl; exact absurd h (by decide)
  simp only [isSpace, Bool.or_eq_false_iff, beq_eq_false_iff_ne, Bool.and_eq_false_iff,
    decide_eq_false_iff_not]
  exact ⟨h32, Or.inr (by omega)⟩

/-- A digit is not a sign. -/
theorem splitSign_of_isDigit {c : UInt8} {s : List UInt8} (h : isDigit c = true) :
    splitSign (c :: s) = (false, c :: s) := by
  have h45 : c ≠ 45 := by rintro rfl; exact absurd h (by decide)
  have h43 : c ≠ 43 := by rintro rfl; exact absurd h (by decide)
  simp [splitSign, h45, h43]

/-- A digit is neither white space nor a sign. -/
theorem splitSign_dropWhile_of_isDigit {c : UInt8} {s : List UInt8} (h : isDigit c = true) :
    splitSign ((c :: s).dropWhile isSpace) = (false, c :: s) := by
  rw [List.dropWhile_cons_of_neg (by rw [isSpace_of_isDigit h]; exact Bool.false_ne_true),
    splitSign_of_isDigit h]

/-- `stoull` reads a number below `2^64` back from its numeral. -/
theorem stoull_decimal {n : ℕ} (h : n < 2^64) : stoull (decimal n) = some n := by
  have hdigits : (decimal n).takeWhile isDigit = decimal n :=
    List.takeWhile_eq_self_iff.mpr fun c hc => isDigit_of_mem_decimal hc
  -- A numeral starts with a digit.
  have hsign : splitSign ((decimal n).dropWhile isSpace) = (false, decimal n) := by
    cases hn : decimal n with
    | nil => exact absurd hn (decimal_ne_nil n)
    | cons c s =>
      apply splitSign_dropWhile_of_isDigit
      apply isDigit_of_mem_decimal (n := n)
      rw [hn]
      exact List.mem_cons_self
  unfold stoull
  rw [hsign]
  simp only [hdigits, digitsValue_decimal]
  rw [if_neg (by have := decimal_ne_nil n; rw [not_or]; exact ⟨this, by omega⟩)]
  rfl

end CxxPandora.Lib
