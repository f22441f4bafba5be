import CxxPandora.Lib.Bytes
import CxxPandora.Lib.Rfc4648
import CxxPandora.Lib.Words
import Mathlib.Data.List.GetD

/-!
# The base64 codec of the OpenSSL demo

`base64_encode` and `base64_decode` of `demos/openssl/main.cpp`. Both accumulate characters in an
array and flush it when it is full; a tail of one or two bytes is flushed at the end. The lengths
are of type `int`, and a decrement of the least one is undefined (`none`). `base64Encode_eq` says
that the encoder computes RFC 4648's encoding, and `base64Decode_encode` that the decoder inverts
it, for the lengths that an `int` holds.
-/

namespace CxxPandora.Openssl

open Lib Rfc4648

/-- `base64_chars`. -/
def base64Chars : List UInt8 := alphabet

/-- `is_base64`: `isalnum` of the C locale, `+`, or `/`. -/
def isBase64 (c : UInt8) : Bool :=
  (48 ≤ c.toNat && c.toNat ≤ 57) || (65 ≤ c.toNat && c.toNat ≤ 90) ||
    (97 ≤ c.toNat && c.toNat ≤ 122) || c == 43 || c == 47

/-- The loop state of either function: the result so far, the number of characters accumulated, and
the array that holds them. -/
structure Acc where
  ret : List UInt8
  i : ℕ
  array : ℕ → UInt8

/-! ## The encoder -/

/-- `char_array_4`, computed from `char_array_3`. The source computes in `int`, where these values
fit in 8 bits. -/
def encodeArray (a : ℕ → UInt8) : ℕ → UInt8
  | 0 => (a 0 &&& 0xfc) >>> 2
  | 1 => ((a 0 &&& 0x03) <<< 4) + ((a 1 &&& 0xf0) >>> 4)
  | 2 => ((a 1 &&& 0x0f) <<< 2) + ((a 2 &&& 0xc0) >>> 6)
  | _ => a 2 &&& 0x3f

/-- The first `n` characters for `char_array_3`. -/
def encodeChars (n : ℕ) (a : ℕ → UInt8) : List UInt8 :=
  (List.range n).map fun i => base64Chars.getD (encodeArray a i).toNat 0

/-- One round of the encoder's loop: store the byte, and flush three of them. -/
def Acc.encodeByte (s : Acc) (byte : UInt8) : Acc :=
  let a := Function.update s.array s.i byte
  if s.i + 1 = 3 then ⟨s.ret ++ encodeChars 4 a, 0, a⟩ else ⟨s.ret, s.i + 1, a⟩

/-- `while (in_len--)`, over the bytes from `bytes_to_encode` on. `none` when the decrement
overflows, or when the loop reads past the bytes. -/
def encodeLoop (s : Acc) (in_len : ℤ) : List UInt8 → Option Acc
  | [] => if in_len = 0 then some s else none
  | byte :: bytes =>
    if in_len = 0 then some s
    else if in_len = intMin then none
    else encodeLoop (s.encodeByte byte) (in_len - 1) bytes

/-- What follows the encoder's loop: clear the rest of `char_array_3`, flush one character more than
it held bytes, and append the padding. -/
def Acc.encodeTail (s : Acc) : List UInt8 :=
  if s.i = 0 then s.ret
  else
    let a := fun j => if j < s.i then s.array j else 0
    s.ret ++ encodeChars (s.i + 1) a ++ List.replicate (3 - s.i) 61

/-- `base64_encode`, with whatever `char_array_3` holds at first. -/
def base64Encode (a₀ : ℕ → UInt8) (bytes_to_encode : List UInt8) (in_len : ℤ) :
    Option (List UInt8) :=
  (encodeLoop ⟨[], 0, a₀⟩ in_len bytes_to_encode).map Acc.encodeTail

/-! ## The decoder -/

/-- `base64_chars.find`, converted to an `unsigned char`: `npos` becomes 255. -/
def findChar (c : UInt8) : UInt8 :=
  match base64Chars.idxOf? c with
  | some k => UInt8.ofNat k
  | none => 255

/-- `char_array_3`, computed from `char_array_4`, in arithmetic modulo `2^8`. -/
def decodeArray (a : ℕ → UInt8) : ℕ → UInt8
  | 0 => (a 0 <<< 2) + ((a 1 &&& 0x30) >>> 4)
  | 1 => ((a 1 &&& 0xf) <<< 4) + ((a 2 &&& 0x3c) >>> 2)
  | _ => ((a 2 &&& 0x3) <<< 6) + a 3

/-- The first `n` bytes for the characters in `char_array_4`. -/
def decodeBytes (n : ℕ) (a : ℕ → UInt8) : List UInt8 :=
  (List.range n).map (decodeArray fun j => findChar (a j))

/-- One round of the decoder's loop: store the character, and flush four of them. -/
def Acc.decodeChar (s : Acc) (c : UInt8) : Acc :=
  let a := Function.update s.array s.i c
  if s.i + 1 = 4 then ⟨s.ret ++ decodeBytes 3 a, 0, fun j => findChar (a j)⟩
  else ⟨s.ret, s.i + 1, a⟩

/-- The decoder's loop, over the characters from index `in_` on; the NUL at the end of the string
ends it. `none` when the decrement of `in_len` or the increment of `in_` overflows. -/
def decodeLoop (s : Acc) (in_len in_ : ℤ) : List UInt8 → Option Acc
  | [] => if in_len = intMin then none else some s
  | c :: cs =>
    if in_len = 0 then some s
    else if in_len = intMin then none
    else if c = 61 ∨ isBase64 c = false then some s
    else if in_ = intMax then none
    else decodeLoop (s.decodeChar c) (in_len - 1) (in_ + 1) cs

/-- What follows the decoder's loop: clear the rest of `char_array_4`, and flush one byte less than
it held characters. -/
def Acc.decodeTail (s : Acc) : List UInt8 :=
  if s.i = 0 then s.ret
  else
    let a := fun j => if j < s.i then s.array j else 0
    s.ret ++ decodeBytes (s.i - 1) a

/-- `base64_decode`, with whatever `char_array_4` holds at first. -/
def base64Decode (a₀ : ℕ → UInt8) (encoded_string : List UInt8) : Option (List UInt8) :=
  (decodeLoop ⟨[], 0, a₀⟩ (toInt encoded_string.length) 0 encoded_string).map Acc.decodeTail

/-! ## The bit operations

Each is a division, a remainder, and a multiplication by powers of two. -/

/-- Some bits in the middle of a byte, shifted to its end. -/
theorem toNat_and_shiftRight {x m s : UInt8} {k w : ℕ} (hs : s.toNat % 8 = k)
    (hm : m.toNat >>> k = 2^w - 1) : ((x &&& m) >>> s).toNat = x.toNat / 2^k % 2^w := by
  rw [UInt8.toNat_shiftRight, UInt8.toNat_and, hs, Nat.shiftRight_and_distrib, hm,
    Nat.and_two_pow_sub_one_eq_mod, Nat.shiftRight_eq_div_pow]

/-- The last bits of a byte, shifted to the left. -/
theorem toNat_and_shiftLeft {x m s : UInt8} {k w : ℕ} (hs : s.toNat % 8 = k)
    (hm : m.toNat = 2^w - 1) : ((x &&& m) <<< s).toNat = x.toNat % 2^w * 2^k % 2^8 := by
  rw [UInt8.toNat_shiftLeft, UInt8.toNat_and, hs, hm, Nat.and_two_pow_sub_one_eq_mod,
    Nat.shiftLeft_eq]

/-- The 6-bit groups of three bytes, by the bits of each byte. -/
theorem sextet_parts {a b c v : ℕ} (hb : b < 2^8) (hc : c < 2^8)
    (hv : v = a * 2^16 + b * 2^8 + c) :
    sextet v 0 = a / 2^2 % 2^6 ∧
      sextet v 1 = (a % 2^2 * 2^4 % 2^8 + b / 2^4 % 2^4) % 2^8 ∧
      sextet v 2 = (b % 2^4 * 2^2 % 2^8 + c / 2^6 % 2^2) % 2^8 ∧ sextet v 3 = c % 2^6 := by
  simp only [sextet]
  omega

/-- The four values that the encoder computes are the 6-bit groups. -/
theorem toNat_encodeArray (a : ℕ → UInt8) {i : ℕ} (hi : i < 4) :
    (encodeArray a i).toNat = sextet (bits24 (a 0) (a 1) (a 2)) i := by
  have hv : bits24 (a 0) (a 1) (a 2) =
      (a 0).toNat * 2^16 + (a 1).toNat * 2^8 + (a 2).toNat := rfl
  obtain ⟨hfirst, hsecond, hthird, hfourth⟩ := sextet_parts (a 1).toNat_lt (a 2).toNat_lt hv
  match i, hi with
  | 0, _ =>
    have h0 : ((a 0 &&& 0xfc) >>> 2).toNat = (a 0).toNat / 2^2 % 2^6 :=
      toNat_and_shiftRight rfl rfl
    exact h0.trans hfirst.symm
  | 1, _ =>
    have h0 : ((a 0 &&& 0x03) <<< 4).toNat = (a 0).toNat % 2^2 * 2^4 % 2^8 :=
      toNat_and_shiftLeft rfl rfl
    have h1 : ((a 1 &&& 0xf0) >>> 4).toNat = (a 1).toNat / 2^4 % 2^4 :=
      toNat_and_shiftRight rfl rfl
    calc (((a 0 &&& 0x03) <<< 4) + ((a 1 &&& 0xf0) >>> 4)).toNat
        = (((a 0 &&& 0x03) <<< 4).toNat + ((a 1 &&& 0xf0) >>> 4).toNat) % 2^8 :=
          UInt8.toNat_add _ _
      _ = ((a 0).toNat % 2^2 * 2^4 % 2^8 + (a 1).toNat / 2^4 % 2^4) % 2^8 := by rw [h0, h1]
      _ = sextet (bits24 (a 0) (a 1) (a 2)) 1 := hsecond.symm
  | 2, _ =>
    have h1 : ((a 1 &&& 0x0f) <<< 2).toNat = (a 1).toNat % 2^4 * 2^2 % 2^8 :=
      toNat_and_shiftLeft rfl rfl
    have h2 : ((a 2 &&& 0xc0) >>> 6).toNat = (a 2).toNat / 2^6 % 2^2 :=
      toNat_and_shiftRight rfl rfl
    calc (((a 1 &&& 0x0f) <<< 2) + ((a 2 &&& 0xc0) >>> 6)).toNat
        = (((a 1 &&& 0x0f) <<< 2).toNat + ((a 2 &&& 0xc0) >>> 6).toNat) % 2^8 :=
          UInt8.toNat_add _ _
      _ = ((a 1).toNat % 2^4 * 2^2 % 2^8 + (a 2).toNat / 2^6 % 2^2) % 2^8 := by rw [h1, h2]
      _ = sextet (bits24 (a 0) (a 1) (a 2)) 2 := hthird.symm
  | 3, _ =>
    calc (a 2 &&& 0x3f).toNat
        = (a 2).toNat &&& (2^6 - 1) := UInt8.toNat_and _ _
      _ = (a 2).toNat % 2^6 := Nat.and_two_pow_sub_one_eq_mod _ _
      _ = sextet (bits24 (a 0) (a 1) (a 2)) 3 := hfourth.symm

/-- A byte that the decoder computes from the 6-bit groups of 24 bits is an 8-bit part of them. It
depends on two of the groups. -/
theorem toNat_decodeArray (v : ℕ) (a : ℕ → UInt8) {i : ℕ} (hi : i < 3)
    (ha : ∀ j ≤ i + 1, (a j).toNat = sextet v j) :
    (decodeArray a i).toNat = v / 2^(8 * (2 - i)) % 2^8 := by
  match i, hi with
  | 0, _ =>
    have e0 : (a 0).toNat = v / 2^18 % 64 := ha 0 (by omega)
    have e1 : (a 1).toNat = v / 2^12 % 64 := ha 1 (by omega)
    have h0 : (a 0 <<< 2).toNat = (a 0).toNat * 2^2 % 2^8 := by
      rw [UInt8.toNat_shiftLeft, Nat.shiftLeft_eq]
      rfl
    have h1 : ((a 1 &&& 0x30) >>> 4).toNat = (a 1).toNat / 2^4 % 2^2 :=
      toNat_and_shiftRight rfl rfl
    show ((a 0 <<< 2) + ((a 1 &&& 0x30) >>> 4)).toNat = v / 2^16 % 2^8
    rw [UInt8.toNat_add, h0, h1, e0, e1]
    omega
  | 1, _ =>
    have e1 : (a 1).toNat = v / 2^12 % 64 := ha 1 (by omega)
    have e2 : (a 2).toNat = v / 2^6 % 64 := ha 2 (by omega)
    have h1 : ((a 1 &&& 0xf) <<< 4).toNat = (a 1).toNat % 2^4 * 2^4 % 2^8 :=
      toNat_and_shiftLeft rfl rfl
    have h2 : ((a 2 &&& 0x3c) >>> 2).toNat = (a 2).toNat / 2^2 % 2^4 :=
      toNat_and_shiftRight rfl rfl
    show (((a 1 &&& 0xf) <<< 4) + ((a 2 &&& 0x3c) >>> 2)).toNat = v / 2^8 % 2^8
    rw [UInt8.toNat_add, h1, h2, e1, e2]
    omega
  | 2, _ =>
    have e2 : (a 2).toNat = v / 2^6 % 64 := ha 2 (by omega)
    have e3 : (a 3).toNat = v % 64 := ha 3 (by omega)
    have h2 : ((a 2 &&& 0x3) <<< 6).toNat = (a 2).toNat % 2^2 * 2^6 % 2^8 :=
      toNat_and_shiftLeft rfl rfl
    show (((a 2 &&& 0x3) <<< 6) + a 3).toNat = v / 2^0 % 2^8
    rw [UInt8.toNat_add, h2, e2, e3]
    omega

/-- The characters that the encoder flushes are those of the 6-bit groups. -/
theorem encodeChars_eq (n : ℕ) (hn : n ≤ 4) (a : ℕ → UInt8) :
    encodeChars n a = chars n (a 0) (a 1) (a 2) := by
  refine List.map_congr_left fun i hi => ?_
  rw [List.mem_range] at hi
  rw [toNat_encodeArray a (by omega)]
  rfl

/-- The characters of the alphabet are different. -/
theorem alphabet_nodup : alphabet.Nodup := by
  have hnat : (alphabet.map UInt8.toNat).Nodup := by decide +kernel
  exact hnat.of_map UInt8.toNat

/-- The decoder's loop goes on with every character of the alphabet. -/
theorem isBase64_of_mem : ∀ c ∈ alphabet, c ≠ 61 ∧ isBase64 c = true := by
  decide +kernel

/-- A character of the alphabet is found at the index of its 6-bit group, and is one that the
decoder's loop goes on with. -/
theorem findChar_char {i : ℕ} (hi : i < 64) :
    (findChar (char i)).toNat = i ∧ char i ≠ 61 ∧ isBase64 (char i) = true := by
  have hlt : i < alphabet.length := hi
  have hchar : char i = alphabet[i] := List.getD_eq_getElem _ _ hlt
  have hsplit : alphabet = alphabet.take i ++ char i :: alphabet.drop (i + 1) := by
    rw [hchar, List.getElem_cons_drop, List.take_append_drop]
  have hnot : char i ∉ alphabet.take i := fun hmem => by
    have hnodup := alphabet_nodup
    rw [hsplit] at hnodup
    exact (List.nodup_append.mp hnodup).2.2 _ hmem _ List.mem_cons_self rfl
  have hfind : base64Chars.idxOf? (char i) = some i := by
    have hidx := idxOf?_append_cons hnot (alphabet.drop (i + 1))
    rwa [← hsplit, List.length_take, Nat.min_eq_left hlt.le] at hidx
  refine ⟨?_, isBase64_of_mem (char i) (hchar ▸ List.getElem_mem hlt)⟩
  rw [findChar, hfind]
  exact UInt8.toNat_ofNat_of_lt' (hi.trans (by decide))

/-! ## The encoder computes the encoding -/

/-- The loop on no byte. -/
theorem encodeLoop_nil (s : Acc) : encodeLoop s (([] : List UInt8).length : ℤ) [] = some s := rfl

/-- The loop on one byte and more: the length that is left decreases, since it is positive. -/
theorem encodeLoop_cons (s : Acc) (byte : UInt8) (bytes : List UInt8) :
    encodeLoop s ((byte :: bytes).length : ℤ) (byte :: bytes) =
      encodeLoop (s.encodeByte byte) (bytes.length : ℤ) bytes := by
  have hlen : ((byte :: bytes).length : ℤ) = (bytes.length : ℤ) + 1 := by
    rw [List.length_cons]
    norm_cast
  rw [hlen, encodeLoop, if_neg (by omega), if_neg (by unfold intMin; omega), Int.add_sub_cancel]

/-- The encoder from the start of a quantum, whatever its array holds. -/
theorem encodeLoop_quantum (bytes : List UInt8) (ret : List UInt8) (a : ℕ → UInt8) :
    (encodeLoop ⟨ret, 0, a⟩ (bytes.length : ℤ) bytes).map Acc.encodeTail =
      some (ret ++ encode bytes) := by
  -- Three bytes a round, as the encoding is defined, and a tail of at most two.
  induction bytes using encode.induct generalizing ret a with
  | case1 x y z rest ih =>
    rw [encodeLoop_cons, encodeLoop_cons, encodeLoop_cons]
    simp only [Acc.encodeByte, Nat.zero_add, show ¬ (1 = 3) by omega, if_false,
      show ¬ (1 + 1 = 3) by omega, if_true]
    rw [ih, encodeChars_eq 4 (le_refl 4)]
    simp [encode]
  | case2 x y =>
    rw [encodeLoop_cons, encodeLoop_cons, encodeLoop_nil, Option.map_some]
    simp only [Acc.encodeByte, Nat.zero_add, show ¬ (1 = 3) by omega, if_false,
      show ¬ (1 + 1 = 3) by omega]
    rw [Acc.encodeTail, if_neg (Nat.succ_ne_zero 1)]
    dsimp only
    rw [encodeChars_eq _ (by omega)]
    simp [encode, pad]
  | case3 x =>
    rw [encodeLoop_cons, encodeLoop_nil, Option.map_some]
    simp only [Acc.encodeByte, Nat.zero_add, show ¬ (1 = 3) by omega, if_false]
    rw [Acc.encodeTail, if_neg (Nat.succ_ne_zero 0)]
    dsimp only
    rw [encodeChars_eq _ (by omega)]
    simp [encode, pad]
  | case4 =>
    simp [encodeLoop, Acc.encodeTail, encode]

/-- The encoder on `|b|` bytes, for a length that an `int` holds. -/
theorem base64Encode_eq (a₀ : ℕ → UInt8) {b : List UInt8} (h : (b.length : ℤ) ≤ intMax) :
    base64Encode a₀ b (toInt b.length) = some (encode b) := by
  rw [toInt_of_nonneg (by omega) h, base64Encode, encodeLoop_quantum, List.nil_append]

/-- The least length that an `int` does not hold becomes the least `int`, whose decrement
overflows. -/
theorem base64Encode_intMin (a₀ : ℕ → UInt8) {b : List UInt8} (h : b.length = 2^31) :
    base64Encode a₀ b (toInt b.length) = none := by
  have hint : toInt b.length = intMin := by
    rw [h]
    rfl
  -- The first round of the loop decrements the least `int`.
  rw [hint]
  cases b with
  | nil => rfl
  | cons c cs =>
    rw [base64Encode, encodeLoop, if_neg (by decide), if_pos rfl]
    rfl

/-! ## The decoder inverts the encoding -/

/-- The bytes that the decoder flushes, of which it needs one character more than it makes bytes. -/
theorem decodeBytes_eq (x y z : UInt8) (a : ℕ → UInt8) {n : ℕ} (hn : n ≤ 3)
    (ha : ∀ j ≤ n, a j = char (sextet (bits24 x y z) j)) :
    decodeBytes n a = [x, y, z].take n := by
  have hbyte : ∀ i < n, decodeArray (fun j => findChar (a j)) i = [x, y, z].getD i 0 := by
    intro i hi
    have hparts := toNat_decodeArray (bits24 x y z) (fun j => findChar (a j)) (show i < 3 by omega)
      fun j hj => by rw [ha j (by omega)]; exact (findChar_char (sextet_lt _ _)).1
    obtain ⟨hx, hy, hz⟩ := bits24_parts x y z
    have hx8 := x.toNat_lt
    apply UInt8.toNat_inj.mp
    rw [hparts]
    match i, show i < 3 by omega with
    | 0, _ =>
      show bits24 x y z / 2^16 % 2^8 = x.toNat
      omega
    | 1, _ => exact hy
    | 2, _ =>
      show bits24 x y z / 2^0 % 2^8 = z.toNat
      omega
  -- Byte by byte.
  have hget : decodeBytes n a = (List.range n).map fun i => [x, y, z].getD i 0 :=
    List.map_congr_left fun i hi => hbyte i (List.mem_range.mp hi)
  rw [hget]
  match n, hn with
  | 0, _ => rfl
  | 1, _ => rfl
  | 2, _ => rfl
  | 3, _ => rfl

/-- The loop on a character of the alphabet: it goes on, since neither counter is at its bound. -/
theorem decodeLoop_char (s : Acc) {k : ℕ} (hk : k < 64) (cs : List UInt8) {in_ : ℤ}
    (hin : in_ + ((char k :: cs).length : ℤ) ≤ intMax) :
    decodeLoop s ((char k :: cs).length : ℤ) in_ (char k :: cs) =
      decodeLoop (s.decodeChar (char k)) (cs.length : ℤ) (in_ + 1) cs := by
  obtain ⟨-, hne, hb64⟩ := findChar_char hk
  have hlen : ((char k :: cs).length : ℤ) = (cs.length : ℤ) + 1 := by
    rw [List.length_cons]
    norm_cast
  have hguard : ¬ (char k = 61 ∨ isBase64 (char k) = false) := by
    rintro (h61 | hno)
    · exact hne h61
    · rw [hb64] at hno
      exact Bool.noConfusion hno
  rw [hlen] at hin ⊢
  rw [decodeLoop, if_neg (by omega), if_neg (by unfold intMin; omega), if_neg hguard,
    if_neg (by omega), Int.add_sub_cancel]

/-- The loop on the padding: it ends. -/
theorem decodeLoop_pad (s : Acc) (cs : List UInt8) (in_ : ℤ) :
    decodeLoop s ((pad :: cs).length : ℤ) in_ (pad :: cs) = some s := by
  have hlen : ((pad :: cs).length : ℤ) = (cs.length : ℤ) + 1 := by
    rw [List.length_cons]
    norm_cast
  rw [hlen, decodeLoop, if_neg (by omega), if_neg (by unfold intMin; omega),
    if_pos (Or.inl (show pad = 61 from rfl))]

/-- The loop on up to three characters of a quantum: they are accumulated. -/
theorem decodeLoop_chars (ret : List UInt8) (a : ℕ → UInt8) (v : ℕ) {n : ℕ} (hn : n ≤ 3)
    (cs : List UInt8) {in_ : ℤ} (hin : in_ + (n + cs.length : ℕ) ≤ intMax) :
    ∃ a', (∀ j < n, a' j = char (sextet v j)) ∧
      decodeLoop ⟨ret, 0, a⟩
          (((List.range n).map (fun i => char (sextet v i)) ++ cs).length : ℤ) in_
          ((List.range n).map (fun i => char (sextet v i)) ++ cs) =
        decodeLoop ⟨ret, n, a'⟩ (cs.length : ℤ) (in_ + n) cs := by
  induction n generalizing cs with
  | zero => exact ⟨a, fun j hj => absurd hj (Nat.not_lt_zero j), by simp⟩
  | succ n ih =>
    -- The last of the characters is the first of what follows the others.
    obtain ⟨a', ha', hloop⟩ := ih (by omega) (char (sextet v n) :: cs) (by
      rw [List.length_cons]
      omega)
    -- The array holds it behind the others.
    refine ⟨Function.update a' n (char (sextet v n)), ?_, ?_⟩
    · intro j hj
      by_cases hjn : j = n
      · rw [hjn, Function.update_self]
      · rw [Function.update_of_ne hjn]
        exact ha' j (by omega)
    · have hcs : (List.range (n + 1)).map (fun i => char (sextet v i)) ++ cs =
          (List.range n).map (fun i => char (sextet v i)) ++ char (sextet v n) :: cs := by
        rw [List.range_succ, List.map_append, List.append_assoc]
        rfl
      rw [hcs, hloop, decodeLoop_char _ (sextet_lt v n) cs (by rw [List.length_cons]; omega),
        Acc.decodeChar]
      dsimp only
      rw [if_neg (by omega)]
      push_cast
      rw [Int.add_assoc]

/-- The decoder on the last quantum, when one or two bytes are left: the padding ends the loop, and
the characters before it are flushed. -/
theorem decodeLoop_tail (ret : List UInt8) (a : ℕ → UInt8) (x y z : UInt8) {n : ℕ} (hn : n ≤ 2)
    (cs : List UInt8) {in_ : ℤ}
    (hin : in_ + (n + 1 + (pad :: cs).length : ℕ) ≤ intMax) :
    (decodeLoop ⟨ret, 0, a⟩ ((chars (n + 1) x y z ++ pad :: cs).length : ℤ) in_
        (chars (n + 1) x y z ++ pad :: cs)).map Acc.decodeTail =
      some (ret ++ [x, y, z].take n) := by
  obtain ⟨a', ha', hloop⟩ :=
    decodeLoop_chars ret a (bits24 x y z) (Nat.succ_le_succ hn) (pad :: cs) hin
  unfold chars
  rw [hloop, decodeLoop_pad, Option.map_some, Acc.decodeTail, if_neg (Nat.succ_ne_zero n)]
  dsimp only
  rw [Nat.succ_sub_one, decodeBytes_eq x y z _ (by omega)]
  intro j hj
  rw [if_pos (by omega)]
  exact ha' j (by omega)

/-- The decoder from the start of a quantum, whatever its array holds. -/
theorem decodeLoop_quantum (bytes : List UInt8) (ret : List UInt8) (a : ℕ → UInt8) (in_ : ℤ)
    (hin : in_ + ((encode bytes).length : ℤ) ≤ intMax) :
    (decodeLoop ⟨ret, 0, a⟩ ((encode bytes).length : ℤ) in_ (encode bytes)).map Acc.decodeTail =
      some (ret ++ bytes) := by
  induction bytes using encode.induct generalizing ret a in_ with
  | case1 x y z rest ih =>
    -- Three characters are accumulated; the fourth flushes three bytes.
    have hsplit : encode (x :: y :: z :: rest) = (List.range 3).map
        (fun i => char (sextet (bits24 x y z) i)) ++
          char (sextet (bits24 x y z) 3) :: encode rest := rfl
    rw [hsplit] at hin ⊢
    rw [List.length_append, List.length_map, List.length_range] at hin
    obtain ⟨a', ha', hloop⟩ := decodeLoop_chars ret a (bits24 x y z) (le_refl 3)
      (char (sextet (bits24 x y z) 3) :: encode rest) hin
    rw [List.length_cons] at hin
    have hflush : (⟨ret, 3, a'⟩ : Acc).decodeChar (char (sextet (bits24 x y z) 3)) =
        ⟨ret ++ [x, y, z], 0,
          fun j => findChar (Function.update a' 3 (char (sextet (bits24 x y z) 3)) j)⟩ := by
      rw [Acc.decodeChar]
      dsimp only
      rw [if_pos rfl, decodeBytes_eq x y z _ (le_refl 3)]
      · rfl
      · intro j hj
        by_cases hj3 : j = 3
        · rw [hj3, Function.update_self]
        · rw [Function.update_of_ne hj3]
          exact ha' j (by omega)
    rw [hloop, decodeLoop_char _ (sextet_lt _ 3) _ (by rw [List.length_cons]; omega), hflush,
      ih _ _ _ (by omega), List.append_assoc]
    rfl
  | case2 x y =>
    have hlen : (encode [x, y]).length = 4 := rfl
    exact decodeLoop_tail ret a x y 0 (le_refl 2) [] (by rwa [hlen] at hin)
  | case3 x =>
    have hlen : (encode [x]).length = 4 := rfl
    exact decodeLoop_tail ret a x 0 0 (Nat.le_succ 1) [pad] (by rwa [hlen] at hin)
  | case4 =>
    rw [encode, List.append_nil, decodeLoop, if_neg (by decide)]
    rfl

/-- The decoder inverts an encoding whose length an `int` holds. -/
theorem base64Decode_encode (a₀ : ℕ → UInt8) {b : List UInt8}
    (h : ((encode b).length : ℤ) ≤ intMax) : base64Decode a₀ (encode b) = some b := by
  rw [base64Decode, toInt_of_nonneg (by omega) h, decodeLoop_quantum b [] a₀ 0 (by omega),
    List.nil_append]

/-! ## The codec -/

/-- The codec, for the lengths that an `int` holds: the encoder computes the padded encoding, with
its length and with `=` in its padding only, and the decoder inverts it. Neither depends on what the
local arrays hold at first. -/
theorem base64_spec (a₀ a₁ : ℕ → UInt8) (b : List UInt8) :
    ((b.length : ℤ) ≤ intMax →
      base64Encode a₀ b (toInt b.length) = some (encode b) ∧
        (encode b).length = 4 * ((b.length + 2) / 3) ∧
        ∃ cs n, encode b = cs ++ List.replicate n pad ∧ n < 3 ∧ pad ∉ cs) ∧
      ((4 * ((b.length + 2) / 3) : ℕ) ≤ intMax →
        (base64Encode a₀ b (toInt b.length)).bind (base64Decode a₁) = some b) := by
  refine ⟨fun h => ?_, fun h => ?_⟩
  · refine ⟨base64Encode_eq a₀ h, length_encode b, body b, (3 - b.length % 3) % 3, ?_, ?_, ?_⟩
    · exact encode_eq_body b
    · omega
    · exact pad_notMem_body b
  · have hlen : (b.length : ℤ) ≤ intMax := by omega
    rw [base64Encode_eq a₀ hlen, Option.bind_some]
    exact base64Decode_encode a₁ (by rwa [length_encode])

/-- The codec on a byte of each end of the range. -/
theorem base64_spec_two :
    base64Encode (fun _ => 0) [0, 255] (toInt 2) = some (encode [0, 255]) ∧
      (base64Encode (fun _ => 0) [0, 255] (toInt 2)).bind (base64Decode fun _ => 0) =
        some [0, 255] :=
  ⟨((base64_spec (fun _ => 0) (fun _ => 0) [0, 255]).1 (by decide)).1,
    (base64_spec (fun _ => 0) (fun _ => 0) [0, 255]).2 (by decide)⟩

/-- The encoder on `2^31` bytes: `in_len` is the least `int`. -/
theorem base64Encode_ne_encode :
    base64Encode (fun _ => 0) (List.replicate (2^31) 0)
        (toInt (List.replicate (2^31) (0 : UInt8)).length) ≠
      some (encode (List.replicate (2^31) 0)) := by
  rw [base64Encode_intMin _ List.length_replicate]
  exact nofun

end CxxPandora.Openssl
