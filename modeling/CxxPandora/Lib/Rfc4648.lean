import Mathlib.Algebra.Group.Nat.Defs
import Mathlib.Data.List.Basic

/-!
# The base64 encoding of RFC 4648

The 24 bits of three bytes are four 6-bit groups, each translated to a character of the alphabet.
When one or two bytes are left at the end, zero bits are added on the right to complete a 6-bit
group, and `=` characters complete the quantum of four. `encode_eq_body` splits an encoding into its
characters and its padding.
-/

namespace CxxPandora.Lib.Rfc4648

/-- The alphabet: `A` to `Z`, `a` to `z`, `0` to `9`, `+`, and `/`. -/
def alphabet : List UInt8 :=
  [65, 66, 67, 68, 69, 70, 71, 72, 73, 74, 75, 76, 77, 78, 79, 80, 81, 82, 83, 84, 85, 86, 87, 88,
    89, 90, 97, 98, 99, 100, 101, 102, 103, 104, 105, 106, 107, 108, 109, 110, 111, 112, 113, 114,
    115, 116, 117, 118, 119, 120, 121, 122, 48, 49, 50, 51, 52, 53, 54, 55, 56, 57, 43, 47]

/-- The padding character, `=`. -/
def pad : UInt8 := 61

/-- The character of a 6-bit group. -/
def char (i : ℕ) : UInt8 := alphabet.getD i 0

/-- The 24 bits of three bytes, as a number. -/
def bits24 (a b c : UInt8) : ℕ := a.toNat * 2^16 + b.toNat * 2^8 + c.toNat

/-- The 6-bit groups of 24 bits, the most significant first. -/
def sextet (v : ℕ) : ℕ → ℕ
  | 0 => v / 2^18 % 64
  | 1 => v / 2^12 % 64
  | 2 => v / 2^6 % 64
  | _ => v % 64

/-- The characters of the first `n` 6-bit groups of three bytes. -/
def chars (n : ℕ) (a b c : UInt8) : List UInt8 :=
  (List.range n).map fun i => char (sextet (bits24 a b c) i)

/-- The characters of an encoding, without the padding. -/
def body : List UInt8 → List UInt8
  | a :: b :: c :: rest => chars 4 a b c ++ body rest
  | [a, b] => chars 3 a b 0
  | [a] => chars 2 a 0 0
  | [] => []

/-- The encoding. -/
def encode : List UInt8 → List UInt8
  | a :: b :: c :: rest => chars 4 a b c ++ encode rest
  | [a, b] => chars 3 a b 0 ++ [pad]
  | [a] => chars 2 a 0 0 ++ [pad, pad]
  | [] => []

/-- A 6-bit group is below 64. -/
theorem sextet_lt (v i : ℕ) : sextet v i < 64 := by
  unfold sextet
  split <;> omega

/-- A character of the alphabet is not the padding. -/
theorem char_ne_pad {i : ℕ} (h : i < 64) : char i ≠ pad := by
  have hall : ∀ i < 64, char i ≠ pad := by decide
  exact hall i h

/-- The number of characters of `n` groups. -/
theorem length_chars (n : ℕ) (a b c : UInt8) : (chars n a b c).length = n := by
  rw [chars, List.length_map, List.length_range]

/-- No padding among the characters of groups. -/
theorem pad_notMem_chars (n : ℕ) (a b c : UInt8) : pad ∉ chars n a b c := by
  intro h
  obtain ⟨i, -, hi⟩ := List.mem_map.mp h
  exact char_ne_pad (sextet_lt _ i) hi

/-- An encoding is its characters, and padding up to a multiple of four. -/
theorem encode_eq_body (bytes : List UInt8) :
    encode bytes = body bytes ++ List.replicate ((3 - bytes.length % 3) % 3) pad := by
  induction bytes using body.induct with
  | case1 a b c rest ih =>
    have hmod : (a :: b :: c :: rest).length % 3 = rest.length % 3 := by
      simp only [List.length_cons]
      omega
    rw [encode, body, ih, hmod, List.append_assoc]
  | case2 a b => rfl
  | case3 a => rfl
  | case4 => rfl

/-- The characters of an encoding have no padding among them. -/
theorem pad_notMem_body (bytes : List UInt8) : pad ∉ body bytes := by
  induction bytes using body.induct with
  | case1 a b c rest ih =>
    rw [body, List.mem_append, not_or]
    exact ⟨pad_notMem_chars 4 a b c, ih⟩
  | case2 a b => exact pad_notMem_chars 3 a b 0
  | case3 a => exact pad_notMem_chars 2 a 0 0
  | case4 => exact List.not_mem_nil

/-- There is no NUL in an encoding. -/
theorem zero_notMem_encode (bytes : List UInt8) : 0 ∉ encode bytes := by
  have hchar : ∀ i < 64, char i ≠ 0 := by decide
  have hchars : ∀ n a b c, 0 ∉ chars n a b c := by
    intro n a b c h
    obtain ⟨i, -, hi⟩ := List.mem_map.mp h
    exact hchar _ (sextet_lt _ i) hi
  induction bytes using encode.induct with
  | case1 a b c rest ih =>
    rw [encode, List.mem_append, not_or]
    exact ⟨hchars 4 a b c, ih⟩
  | case2 a b =>
    rw [encode, List.mem_append, not_or]
    exact ⟨hchars 3 a b 0, by decide⟩
  | case3 a =>
    rw [encode, List.mem_append, not_or]
    exact ⟨hchars 2 a 0 0, by decide⟩
  | case4 => exact List.not_mem_nil

/-- An encoding has four characters for every three bytes, or part of three. -/
theorem length_encode (bytes : List UInt8) :
    (encode bytes).length = 4 * ((bytes.length + 2) / 3) := by
  induction bytes using body.induct with
  | case1 a b c rest ih =>
    rw [encode, List.length_append, length_chars, ih]
    simp only [List.length_cons]
    omega
  | case2 a b => simp [encode, length_chars]
  | case3 a => simp [encode, length_chars]
  | case4 => rfl

/-- Three bytes are the 8-bit parts of their 24 bits. -/
theorem bits24_parts (a b c : UInt8) :
    bits24 a b c / 2^16 = a.toNat ∧ bits24 a b c / 2^8 % 2^8 = b.toNat ∧
      bits24 a b c % 2^8 = c.toNat := by
  have ha := a.toNat_lt
  have hb := b.toNat_lt
  have hc := c.toNat_lt
  unfold bits24
  omega

end CxxPandora.Lib.Rfc4648
