import CxxPandora.Lib.Hex

/-!
# The hexadecimal codec of the SM2 demos

`byte_to_hex` of `demos/ssl/sm2/sm2_pub_hex.cpp`, and `hex_to_bytes` of it and of `sm2_pri_hex.cpp`,
which differ in the type of the counter. The decoder reads two digits at a time, and the last digit
of an odd number of digits as a byte. `hexCodec_iff` shows that the digits of bytes are read back
when the counter can reach their end, and for which numerals the bytes denote the same number.
-/

namespace CxxPandora.Sm2

open Lib

/-- What an output stream makes of a number in base 16, of a width of two filled with zeros. -/
def putHex (n : ℕ) : List UInt8 :=
  List.leftpad 2 48 (if n = 0 then [48] else ((Nat.digits 16 n).map hexDigit).reverse)

/-- `byte_to_hex`. -/
def byteToHex (bytes : List UInt8) : List UInt8 :=
  bytes.foldl (fun oss byte => oss ++ putHex byte.toNat) []

/-- The loop of `hex_to_bytes` from index `i` on, of at most so many passes, with a counter of the
given number of values. -/
def hexToBytesFrom (values : ℕ) (hex : List UInt8) : ℕ → ℕ → List UInt8 → Option (List UInt8)
  | 0, _, _ => none
  | fuel + 1, i, bytes =>
    if i < hex.length then
      let byteString := (hex.drop i).take 2
      let byte := UInt8.ofInt (strtol16 byteString)
      hexToBytesFrom values hex fuel ((i + 2) % values) (bytes ++ [byte])
    else some bytes

/-- `hex_to_bytes` of `sm2_pub_hex.cpp`: the counter is an `unsigned int`. -/
def Pub.hexToBytes (fuel : ℕ) (hex : List UInt8) : Option (List UInt8) :=
  hexToBytesFrom (2^32) hex fuel 0 []

/-- `hex_to_bytes` of `sm2_pri_hex.cpp`: the counter is a `size_t`. -/
def Pri.hexToBytes (fuel : ℕ) (hex : List UInt8) : Option (List UInt8) :=
  hexToBytesFrom (2^64) hex fuel 0 []

/-- The number of the bytes that `rebuild_sm2_private_key` makes of a numeral. What `BN_bin2bn`,
which takes their length as an `int`, and `EC_KEY_generate_key` make of them is not looked at. -/
def privKeyNumber (fuel : ℕ) (private_key_hex : List UInt8) : Option ℕ :=
  (Pri.hexToBytes fuel private_key_hex).map bytesNumber

/-- `hex_to_bytes` ends and inverts `byte_to_hex`. -/
def RoundTrips (b : List UInt8) : Prop :=
  ∃ n₀, ∀ fuel, n₀ ≤ fuel → Pub.hexToBytes fuel (byteToHex b) = some b

/-- The bytes denote the number that the numeral denotes. -/
def KeepsValue (h : List UInt8) : Prop :=
  ∃ n₀, ∀ fuel, n₀ ≤ fuel → privKeyNumber fuel h = some (hexNumber h)

/-! ## `byte_to_hex` -/

/-- A byte is printed as two digits. -/
theorem putHex_eq (b : UInt8) :
    putHex b.toNat = [hexDigit (b.toNat / 16), hexDigit (b.toNat % 16)] := by
  have hlt := b.toNat_lt
  unfold putHex
  rcases Nat.lt_or_ge b.toNat 16 with hsmall | hlarge
  · by_cases hzero : b.toNat = 0
    · rw [hzero]
      rfl
    · rw [if_neg hzero, Nat.digits_of_lt 16 _ hzero hsmall, Nat.div_eq_of_lt hsmall,
        Nat.mod_eq_of_lt hsmall]
      rfl
  · have hhigh : b.toNat / 16 ≠ 0 := by omega
    rw [if_neg (by omega), Nat.digits_def' (by decide) (by omega),
      Nat.digits_of_lt 16 _ hhigh (by omega)]
    rfl

/-- `byte_to_hex` prints two digits for each byte. -/
theorem byteToHex_eq (bytes : List UInt8) : byteToHex bytes = hexOf hexDigit bytes := by
  have hfold : ∀ oss, bytes.foldl (fun oss byte => oss ++ putHex byte.toNat) oss =
      oss ++ hexOf hexDigit bytes := by
    induction bytes with
    | nil => exact fun oss => (List.append_nil oss).symm
    | cons b bytes ih =>
      intro oss
      rw [List.foldl_cons, ih, putHex_eq, List.append_assoc]
      rfl
  exact hfold []

/-! ## `hex_to_bytes` -/

/-- The byte that is read from one or two digits. -/
theorem ofInt_strtol16 {ds : List UInt8} (hne : ds ≠ []) (h : IsHex ds) (hlen : ds.length ≤ 2) :
    UInt8.ofInt (strtol16 ds) = UInt8.ofNat (hexNumber ds) := by
  have hmod : ((hexNumber ds : ℤ) % 2^8).toNat = hexNumber ds % 2^8 := by omega
  rw [strtol16_eq hne h (by omega), UInt8.ofInt, hmod, UInt8.ofNat_mod_size]

/-- The loop ends at the end of the digits. -/
theorem hexToBytesFrom_of_le {values : ℕ} {hex : List UInt8} {i : ℕ} (hi : hex.length ≤ i)
    (fuel : ℕ) (bytes : List UInt8) :
    hexToBytesFrom values hex (fuel + 1) i bytes = some bytes := by
  rw [hexToBytesFrom, if_neg (by omega)]

/-- One pass of the loop, when the counter does not wrap. -/
theorem hexToBytesFrom_succ {values : ℕ} {hex : List UInt8} (h : IsHex hex) {i : ℕ}
    (hi : i < hex.length) (hvalues : i + 2 < values) (fuel : ℕ) (bytes : List UInt8) :
    hexToBytesFrom values hex (fuel + 1) i bytes =
      hexToBytesFrom values hex fuel (i + 2)
        (bytes ++ [UInt8.ofNat (hexNumber ((hex.drop i).take 2))]) := by
  have hdigits : IsHex ((hex.drop i).take 2) := fun c hc =>
    h c (List.mem_of_mem_drop (List.mem_of_mem_take hc))
  have hne : (hex.drop i).take 2 ≠ [] := by
    refine List.ne_nil_of_length_pos ?_
    rw [List.length_take, List.length_drop]
    omega
  rw [hexToBytesFrom, if_pos hi, Nat.mod_eq_of_lt hvalues]
  dsimp only
  rw [ofInt_strtol16 hne hdigits (List.length_take_le 2 _)]

/-- The loop reads the rest of the digits when the counter can reach their end. -/
theorem hexToBytesFrom_eq {values : ℕ} {hex : List UInt8} (h : IsHex hex)
    (hlen : hex.length + 1 < values) {fuel i : ℕ} {rest : List UInt8} (hrest : hex.drop i = rest)
    (hfuel : rest.length < fuel) (bytes : List UInt8) :
    hexToBytesFrom values hex fuel i bytes = some (bytes ++ ofPairs rest) := by
  obtain ⟨fuel, rfl⟩ := Nat.exists_eq_add_one.mpr (Nat.zero_lt_of_lt hfuel)
  have hcount : rest.length = hex.length - i := by rw [← hrest, List.length_drop]
  -- Two digits a pass, as they are read, and one or none in the last.
  induction rest using ofPairs.induct generalizing i fuel bytes with
  | case1 c d ds ih =>
    rw [List.length_cons, List.length_cons] at hcount hfuel
    obtain ⟨fuel, rfl⟩ := Nat.exists_eq_add_one.mpr (show 0 < fuel by omega)
    have hdrop : hex.drop (i + 2) = ds := by
      rw [← List.drop_drop, hrest]
      rfl
    rw [hexToBytesFrom_succ h (by omega) (by omega), hrest,
      ih hdrop _ fuel (by omega) (by omega), ofPairs, List.append_assoc]
    rfl
  | case2 c =>
    rw [List.length_singleton] at hcount hfuel
    obtain ⟨fuel, rfl⟩ := Nat.exists_eq_add_one.mpr (show 0 < fuel by omega)
    rw [hexToBytesFrom_succ h (by omega) (by omega), hrest, hexToBytesFrom_of_le (by omega)]
    rfl
  | case3 =>
    rw [List.length_nil] at hcount
    rw [hexToBytesFrom_of_le (by omega), ofPairs, List.append_nil]

/-- The loop does not end when the counter cannot reach the end of the digits. -/
theorem hexToBytesFrom_eq_none {values : ℕ} {hex : List UInt8} (hlen : values ≤ hex.length)
    {i : ℕ} (hi : i < values) (fuel : ℕ) (bytes : List UInt8) :
    hexToBytesFrom values hex fuel i bytes = none := by
  induction fuel generalizing i bytes with
  | zero => rfl
  | succ fuel ih =>
    rw [hexToBytesFrom, if_pos (by omega)]
    exact ih (Nat.mod_lt _ (by omega)) _

/-! ## The result -/

/-- The digits of bytes are read back exactly when there are fewer than `2^32` digits. -/
theorem roundTrips_iff_length (b : List UInt8) : RoundTrips b ↔ b.length < 2^31 := by
  have hlen := length_hexOf hexDigit b
  unfold RoundTrips Pub.hexToBytes
  rw [byteToHex_eq]
  constructor
  · rintro ⟨n₀, hrun⟩
    by_contra hlarge
    have hnone := hrun n₀ (le_refl n₀)
    rw [hexToBytesFrom_eq_none (by omega) (by decide)] at hnone
    exact nomatch hnone
  · intro hlt
    refine ⟨(hexOf hexDigit b).length + 1, fun fuel hfuel => ?_⟩
    rw [hexToBytesFrom_eq (isHex_hexOf isDigitOf_hexDigit b) (by omega) List.drop_zero (by omega),
      ofPairs_hexOf isDigitOf_hexDigit, List.nil_append]

/-- The number of the bytes is that of the numeral exactly when its number of digits is even, or all
digits before the last are zero. -/
theorem keepsValue_iff {h : List UInt8} (hhex : IsHex h) (hlen : h.length < 2^63) :
    KeepsValue h ↔ Even h.length ∨ ∀ c ∈ h.dropLast, c = 48 := by
  have hrun : ∀ fuel, h.length < fuel →
      privKeyNumber fuel h = some (bytesNumber (ofPairs h)) := by
    intro fuel hfuel
    rw [privKeyNumber, Pri.hexToBytes,
      hexToBytesFrom_eq hhex (by omega) List.drop_zero hfuel, List.nil_append, Option.map_some]
  rw [← bytesNumber_ofPairs_iff hhex]
  constructor
  · rintro ⟨n₀, hkeeps⟩
    have hboth := hkeeps (max n₀ (h.length + 1)) (le_max_left _ _)
    rw [hrun _ (Nat.lt_of_lt_of_le (Nat.lt_succ_self _) (le_max_right _ _))] at hboth
    exact Option.some.inj hboth
  · intro heq
    exact ⟨h.length + 1, fun fuel hfuel => by rw [hrun fuel hfuel, heq]⟩

/-- The codec round-trips bytes exactly when they are fewer than `2^31`, and keeps the number of a
numeral exactly when its number of digits is even, or all digits before the last are zero. The
length of a string is below `2^63`. -/
theorem hexCodec_iff (b h : List UInt8) :
    (RoundTrips b ↔ b.length < 2^31) ∧
      (h ≠ [] → IsHex h → h.length < 2^63 →
        (KeepsValue h ↔ Even h.length ∨ ∀ c ∈ h.dropLast, c = 48)) :=
  ⟨roundTrips_iff_length b, fun _ => keepsValue_iff⟩

/-- The codec on three bytes and on `"0a"`. -/
theorem hexCodec_iff_short : RoundTrips [0, 7, 255] ∧ KeepsValue [48, 97] := by
  obtain ⟨hround, hkeeps⟩ := hexCodec_iff [0, 7, 255] [48, 97]
  exact ⟨hround.mpr (by decide),
    (hkeeps (List.cons_ne_nil _ _) (by decide) (by decide)).mpr (Or.inl (by decide))⟩

/-- The numeral that `main` of `sm2_pri_hex.cpp` passes, of 61 digits. -/
def privateKeyHex : List UInt8 :=
  [50, 56, 57, 99, 50, 100, 54, 102, 55, 100, 56, 102, 52, 97, 49, 98, 57, 101, 50, 99, 56, 100, 55,
    97, 54, 98, 53, 99, 52, 100, 51, 101, 50, 102, 49, 97, 48, 98, 57, 101, 56, 100, 55, 99, 54, 98,
    53, 97, 52, 102, 51, 101, 50, 100, 49, 99, 48, 98, 57, 97, 56]

/-- The bytes that `main` gets do not denote the number that its numeral denotes. -/
theorem not_keepsValue_privateKeyHex :
    privateKeyHex ≠ [] ∧ IsHex privateKeyHex ∧ ¬ KeepsValue privateKeyHex := by
  refine ⟨List.cons_ne_nil _ _, by decide, ?_⟩
  rw [keepsValue_iff (by decide) (by decide)]
  decide

end CxxPandora.Sm2
