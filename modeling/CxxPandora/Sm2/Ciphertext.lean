import CxxPandora.Sm2.HexCodec

/-!
# The digits of an SM2 ciphertext

The string `c1c2c3_hex` that `func1` of `demos/ssl/sm2/sm2_pub_hex.cpp` builds of a ciphertext: the
coordinates as `BN_bn2hex` prints them, and the digits of `C2` and `C3`. `decodable_iff` shows that
its parts are where a reader looks for them exactly when neither coordinate has a leading zero byte,
which `BN_bn2hex` does not print; then the ciphertext is recovered (`recover_eq`).
-/

namespace CxxPandora.Sm2

open Lib

/-- `SM2_Ciphertext`. -/
structure SM2Ciphertext where
  C1x : ℕ
  C1y : ℕ
  C3 : List UInt8
  C2 : List UInt8

/-- What is documented of `BN_bn2hex`: it prints the shortest whole number of bytes. -/
structure PrintsBytes (bnBn2hex : ℕ → List UInt8) : Prop where
  /-- It prints digits. -/
  isHex : ∀ n, IsHex (bnBn2hex n)
  /-- They denote the number. -/
  hexNumber_eq : ∀ n, hexNumber (bnBn2hex n) = n
  /-- There are two for each byte. -/
  even_length : ∀ n, 0 < n → Even (bnBn2hex n).length
  /-- The first byte is not zero. -/
  pow_le : ∀ n, 0 < n → 16^((bnBn2hex n).length - 2) ≤ n
  /-- Zero is one byte at most. -/
  length_zero : (bnBn2hex 0).length ≤ 2

/-- `c1c2c3_hex`. -/
def c1c2c3Hex (bnBn2hex : ℕ → List UInt8) (sm2_ctext : SM2Ciphertext) : List UInt8 :=
  bnBn2hex sm2_ctext.C1x ++ bnBn2hex sm2_ctext.C1y ++ byteToHex sm2_ctext.C2 ++
    byteToHex sm2_ctext.C3

/-- The string has 64 digits for each coordinate, two for each byte of `C2`, and 64 for `C3`, in
this order. -/
structure Decodable (s : List UInt8) (sm2_ctext : SM2Ciphertext) : Prop where
  isHex : IsHex s
  length_eq : s.length = 64 + 64 + 2 * sm2_ctext.C2.length + 64
  c1x : hexNumber (s.take 64) = sm2_ctext.C1x
  c1y : hexNumber ((s.drop 64).take 64) = sm2_ctext.C1y
  c2 : (s.drop 128).take (2 * sm2_ctext.C2.length) = byteToHex sm2_ctext.C2
  c3 : s.drop (128 + 2 * sm2_ctext.C2.length) = byteToHex sm2_ctext.C3

/-- The ciphertext that is read from such a string. -/
def recover (s : List UInt8) : SM2Ciphertext where
  C1x := hexNumber (s.take 64)
  C1y := hexNumber ((s.drop 64).take 64)
  C3 := ofPairs (s.drop (s.length - 64))
  C2 := ofPairs ((s.drop 128).take (s.length - 192))

/-- The ciphertext is recovered. -/
theorem recover_eq {s : List UInt8} {sm2_ctext : SM2Ciphertext} (h : Decodable s sm2_ctext) :
    recover s = sm2_ctext := by
  have hlen := h.length_eq
  have hc3 : s.length - 64 = 128 + 2 * sm2_ctext.C2.length := by omega
  have hc2 : s.length - 192 = 2 * sm2_ctext.C2.length := by omega
  rw [recover, h.c1x, h.c1y, hc3, h.c3, hc2, h.c2, byteToHex_eq, byteToHex_eq,
    ofPairs_hexOf isDigitOf_hexDigit, ofPairs_hexOf isDigitOf_hexDigit]

/-! ## The coordinates -/

/-- A number below a power has at most so many digits, and as many when its first byte is not zero.
-/
theorem length_bnBn2hex {bnBn2hex : ℕ → List UInt8} (h : PrintsBytes bnBn2hex) {n k : ℕ}
    (hk : 2 ≤ k) (hn : n < 16^(2 * k)) :
    (bnBn2hex n).length ≤ 2 * k ∧ ((bnBn2hex n).length = 2 * k ↔ 16^(2 * k - 2) ≤ n) := by
  rcases Nat.eq_zero_or_pos n with rfl | hpos
  · have hzero := h.length_zero
    have hpow : 0 < 16^(2 * k - 2) := Nat.pow_pos (by decide)
    exact ⟨by omega, by omega⟩
  · obtain ⟨m, hm⟩ := h.even_length n hpos
    have hlow := h.pow_le n hpos
    have hhigh := hexNumber_lt (h.isHex n)
    rw [h.hexNumber_eq] at hhigh
    have hle := (Nat.pow_lt_pow_iff_right (by decide : 1 < 16)).mp (Nat.lt_of_le_of_lt hlow hn)
    refine ⟨by omega, fun heq => heq ▸ hlow, fun hge => ?_⟩
    have hlt := (Nat.pow_lt_pow_iff_right (by decide : 1 < 16)).mp (Nat.lt_of_le_of_lt hge hhigh)
    omega

/-- A coordinate has at most 64 digits, and 64 when it has no leading zero byte. -/
theorem length_coordinate {bnBn2hex : ℕ → List UInt8} (h : PrintsBytes bnBn2hex) {n : ℕ}
    (hn : n < 2^256) :
    (bnBn2hex n).length ≤ 64 ∧ ((bnBn2hex n).length = 64 ↔ 2^248 ≤ n) := by
  have hlow : 2^248 = 16^(2 * 32 - 2) := Nat.pow_mul 2 4 62
  have hhigh : 2^256 = 16^(2 * 32) := Nat.pow_mul 2 4 64
  rw [hhigh] at hn
  rw [hlow]
  exact length_bnBn2hex h (by decide) hn

/-! ## The string -/

/-- The number of digits for some bytes. -/
theorem length_byteToHex (bytes : List UInt8) : (byteToHex bytes).length = 2 * bytes.length := by
  rw [byteToHex_eq, length_hexOf]

/-- A string that is decodable has no digit too few. -/
theorem le_of_decodable {bnBn2hex : ℕ → List UInt8} (h : PrintsBytes bnBn2hex)
    {sm2_ctext : SM2Ciphertext} (hx : sm2_ctext.C1x < 2^256) (hy : sm2_ctext.C1y < 2^256)
    (hc3 : sm2_ctext.C3.length = 32)
    (hdecodable : Decodable (c1c2c3Hex bnBn2hex sm2_ctext) sm2_ctext) :
    2^248 ≤ sm2_ctext.C1x ∧ 2^248 ≤ sm2_ctext.C1y := by
  obtain ⟨hxle, hxiff⟩ := length_coordinate h hx
  obtain ⟨hyle, hyiff⟩ := length_coordinate h hy
  have hlen := hdecodable.length_eq
  rw [c1c2c3Hex, List.length_append, List.length_append, List.length_append, length_byteToHex,
    length_byteToHex, hc3] at hlen
  rw [← hxiff, ← hyiff]
  omega

/-- A string is decodable when both coordinates have 64 digits. -/
theorem decodable_of_length {bnBn2hex : ℕ → List UInt8} (h : PrintsBytes bnBn2hex)
    {sm2_ctext : SM2Ciphertext} (hx64 : (bnBn2hex sm2_ctext.C1x).length = 64)
    (hy64 : (bnBn2hex sm2_ctext.C1y).length = 64) (hc3 : sm2_ctext.C3.length = 32) :
    Decodable (c1c2c3Hex bnBn2hex sm2_ctext) sm2_ctext := by
  have hdrop64 : (c1c2c3Hex bnBn2hex sm2_ctext).drop 64 =
      bnBn2hex sm2_ctext.C1y ++ (byteToHex sm2_ctext.C2 ++ byteToHex sm2_ctext.C3) := by
    rw [c1c2c3Hex, List.append_assoc, List.append_assoc, List.drop_left' hx64]
  have hdrop128 : (c1c2c3Hex bnBn2hex sm2_ctext).drop 128 =
      byteToHex sm2_ctext.C2 ++ byteToHex sm2_ctext.C3 := by
    rw [show 128 = 64 + 64 by rfl, ← List.drop_drop, hdrop64, List.drop_left' hy64]
  refine ⟨?_, ?_, ?_, ?_, ?_, ?_⟩
  · intro c hc
    rw [c1c2c3Hex, byteToHex_eq, byteToHex_eq, List.mem_append, List.mem_append,
      List.mem_append] at hc
    rcases hc with ((hc | hc) | hc) | hc
    · exact h.isHex _ c hc
    · exact h.isHex _ c hc
    · exact isHex_hexOf isDigitOf_hexDigit _ c hc
    · exact isHex_hexOf isDigitOf_hexDigit _ c hc
  · rw [c1c2c3Hex, List.length_append, List.length_append, List.length_append, hx64, hy64,
      length_byteToHex, length_byteToHex, hc3]
  · rw [c1c2c3Hex, List.append_assoc, List.append_assoc, List.take_left' hx64, h.hexNumber_eq]
  · rw [hdrop64, List.take_left' hy64, h.hexNumber_eq]
  · rw [hdrop128, List.take_left' (length_byteToHex _)]
  · rw [← List.drop_drop, hdrop128, List.drop_left' (length_byteToHex _)]

/-- The string is decodable exactly when neither coordinate has a leading zero byte. -/
theorem decodable_iff {bnBn2hex : ℕ → List UInt8} (h : PrintsBytes bnBn2hex)
    {sm2_ctext : SM2Ciphertext} (hx : sm2_ctext.C1x < 2^256) (hy : sm2_ctext.C1y < 2^256)
    (hc3 : sm2_ctext.C3.length = 32) :
    Decodable (c1c2c3Hex bnBn2hex sm2_ctext) sm2_ctext ↔
      2^248 ≤ sm2_ctext.C1x ∧ 2^248 ≤ sm2_ctext.C1y := by
  constructor
  · exact le_of_decodable h hx hy hc3
  · rintro ⟨hxle, hyle⟩
    exact decodable_of_length h ((length_coordinate h hx).2.mpr hxle)
      ((length_coordinate h hy).2.mpr hyle) hc3

/-! ## Two points -/

/-- `BN_bn2hex`. -/
def bn2hex (n : ℕ) : List UInt8 :=
  if n = 0 then [48]
  else hexOf upperHexDigit ((Nat.digits 256 n).reverse.map UInt8.ofNat)

/-- The bytes of a number denote it. -/
theorem bytesNumber_digits (n : ℕ) :
    bytesNumber ((Nat.digits 256 n).reverse.map UInt8.ofNat) = n := by
  have hmap : (Nat.digits 256 n).map (UInt8.toNat ∘ UInt8.ofNat) = Nat.digits 256 n := by
    refine (List.map_congr_left fun d hd => ?_).trans (List.map_id _)
    exact UInt8.toNat_ofNat_of_lt' (Nat.digits_lt_base (by decide) hd)
  rw [bytesNumber, positional, List.map_map, List.map_reverse, List.reverse_reverse, hmap,
    Nat.ofDigits_digits]

/-- It prints the shortest whole number of bytes. -/
theorem printsBytes_bn2hex : PrintsBytes bn2hex where
  isHex := by
    intro n
    unfold bn2hex
    split_ifs
    · decide
    · exact isHex_hexOf isDigitOf_upperHexDigit _
  hexNumber_eq := by
    intro n
    unfold bn2hex
    split_ifs with hzero
    · rw [hzero]
      rfl
    · rw [hexNumber_hexOf isDigitOf_upperHexDigit, bytesNumber_digits]
  even_length := by
    intro n hpos
    rw [bn2hex, if_neg hpos.ne', length_hexOf]
    exact even_two_mul _
  pow_le := by
    intro n hpos
    have hle := Nat.base_pow_length_digits_le 256 n (by decide) hpos.ne'
    have hne : Nat.digits 256 n ≠ [] := Nat.digits_ne_nil_iff_ne_zero.mpr hpos.ne'
    obtain ⟨m, hm⟩ := Nat.exists_eq_add_one.mpr (List.length_pos_iff.mpr hne)
    have hexp : 2 * (m + 1) - 2 = 2 * m := by omega
    rw [hm, Nat.pow_succ, Nat.mul_comm] at hle
    rw [bn2hex, if_neg hpos.ne', length_hexOf, List.length_map, List.length_reverse, hm, hexp,
      Nat.pow_mul]
    exact Nat.le_of_mul_le_mul_left hle (by decide)
  length_zero := by decide

/-- A ciphertext whose point is the generator of the curve. -/
def generatorCtext : SM2Ciphertext where
  C1x := 0x32c4ae2c1f1981195f9904466a39c9948fe30bbff2660be1715a4589334c74c7
  C1y := 0xbc3736a2f4f6779c59bdcee36b692153d0a9877cc62a474002df32e52139f0a0
  C3 := List.replicate 32 0
  C2 := [49, 50, 51, 52, 53, 54]

/-- A ciphertext whose point is 327 times the generator: its first coordinate has a leading zero
byte. -/
def shortCtext : SM2Ciphertext where
  C1x := 0xd062045840b1f4b0a64d6e6c5bc582079fc0af8c366eba632b35f5e217385b
  C1y := 0x5032f04533c064a41a7616cbb528b168c79a247d46f1c3667e1a2f5921aca9a4
  C3 := List.replicate 32 0
  C2 := [49, 50, 51, 52, 53, 54]

/-- The ciphertext with the generator is decodable. -/
theorem decodable_iff_generator :
    PrintsBytes bn2hex ∧ Decodable (c1c2c3Hex bn2hex generatorCtext) generatorCtext :=
  ⟨printsBytes_bn2hex, (decodable_iff printsBytes_bn2hex (by decide) (by decide) rfl).mpr
    (by decide)⟩

/-- The other has two digits too few. -/
theorem not_decodable_short : PrintsBytes bn2hex ∧ shortCtext.C1x < 2^256 ∧
    shortCtext.C1y < 2^256 ∧ shortCtext.C3.length = 32 ∧
      ¬ Decodable (c1c2c3Hex bn2hex shortCtext) shortCtext := by
  refine ⟨printsBytes_bn2hex, by decide, by decide, rfl, fun hdecodable => ?_⟩
  have hle := le_of_decodable printsBytes_bn2hex (by decide) (by decide) rfl hdecodable
  exact absurd hle.1 (by decide)

end CxxPandora.Sm2
