import CxxPandora.Openssl.EvpCipher

/-!
# The sizes of the buffers

Both `EncodeToString` functions, `DecodeString` and `Encrypt` of `demos/openssl/evp_cipher.cpp`
allocate a buffer for the bytes that they have OpenSSL write, each with a size of its own
(`bufferSize`). `suffices_iff` shows for which lengths of the input each size is computed without an
overflow and is as large as what is written (`bytesWritten`), and that all four are so for few
lengths only. Where the size of a buffer is not enough, the models of the functions are undefined
(`encodeBytesToString_isSome`, `encodeToString_isSome`, `Encrypt_eq_none`); that of `DecodeString`
is never exceeded (`decodeString_eq`).
-/

namespace CxxPandora.Openssl

open Lib

/-- The buffers: that of `EncodeToString` of bytes, of `EncodeToString` of a string, of
`DecodeString`, and of `Encrypt`. -/
inductive Buffer
  | encodeBytes
  | encodeString
  | decodeString
  | encrypt

/-- Whether the buffer is allocated for an input of so many bytes. `EncodeToString` of an empty
string returns before. -/
def Buffer.allocated : Buffer → ℤ → Bool
  | .encodeString, inl => inl ≠ 0
  | _, _ => true

/-- The size that is passed to `malloc`; `none` when it overflows. In `Encrypt`, `inl` is a
`size_t`. -/
def bufferSize : Buffer → ℤ → Option ℤ
  | .encodeBytes, inl => (checkInt (inl * 4)).bind fun m => checkInt (m / 3 + 3)
  | .encodeString, inl =>
    (checkInt (inl * 4)).bind fun m => (checkInt (m / 3 + 3)).bind fun block_size =>
      checkInt (inl * block_size)
  | .decodeString, inl => (checkInt (inl * 3)).map fun m => m / 4
  | .encrypt, inl => some (sizeAdd inl.toNat blockSize)

/-- The number of bytes that are written: the characters of the encoding and a NUL, three bytes for
every four characters, or what `memset` clears and the encryption writes, whichever is more. -/
def bytesWritten : Buffer → ℤ → ℤ
  | .encodeBytes, inl => 4 * ((inl + 2) / 3) + 1
  | .encodeString, inl => 4 * ((inl + 2) / 3) + 1
  | .decodeString, inl => 3 * (inl / 4)
  | .encrypt, inl => max (inl * 2) (inl + blockSize)

/-- The size is computed without an overflow, and what is written fits, if there is a buffer. -/
def Suffices (b : Buffer) (inl : ℤ) : Prop :=
  b.allocated inl = true → ∃ size, bufferSize b inl = some size ∧ bytesWritten b inl ≤ size

/-- The lengths for which the size of a buffer suffices. -/
def LengthOk : Buffer → ℤ → Prop
  | .encodeBytes, inl => inl ≤ 536870911 ∧ inl % 3 ≠ 1
  | .encodeString, inl => inl = 0 ∨ 2 ≤ inl ∧ inl ≤ 40131
  | .decodeString, inl => inl ≤ 715827882
  | .encrypt, inl => inl ≤ 16

/-! ## The four sizes -/

/-- A nonnegative result is exact, or overflows. -/
theorem checkInt_eq_ite {z : ℤ} (h : 0 ≤ z) : checkInt z = if z ≤ intMax then some z else none := by
  split_ifs with hle
  · exact checkInt_of_nonneg h hle
  · exact checkInt_eq_none (by unfold intMax at hle; omega)

/-- Only the product overflows in `EncodeToString` of bytes. -/
theorem bufferSize_encodeBytes {inl : ℤ} (h0 : 0 ≤ inl) :
    bufferSize .encodeBytes inl =
      if inl * 4 ≤ intMax then some (inl * 4 / 3 + 3) else none := by
  rw [bufferSize, checkInt_eq_ite (by omega)]
  split_ifs with hle
  · rw [Option.bind_some]
    exact checkInt_of_nonneg (by omega) (by unfold intMax at hle ⊢; omega)
  · rfl

/-- In `EncodeToString` of a string, which is not empty, the second product is the greatest value.
-/
theorem bufferSize_encodeString {inl : ℤ} (h1 : 1 ≤ inl) :
    bufferSize .encodeString inl =
      if inl * (inl * 4 / 3 + 3) ≤ intMax then some (inl * (inl * 4 / 3 + 3)) else none := by
  have hfactor : inl * 4 ≤ inl * (inl * 4 / 3 + 3) :=
    mul_le_mul_of_nonneg_left (by omega) (by omega)
  have hother : inl * 4 / 3 + 3 ≤ inl * (inl * 4 / 3 + 3) :=
    le_mul_of_one_le_left (by omega) h1
  rw [bufferSize, checkInt_eq_ite (by omega)]
  by_cases hle : inl * 4 ≤ intMax
  · rw [if_pos hle, Option.bind_some,
      checkInt_of_nonneg (by omega) (by unfold intMax at hle ⊢; omega), Option.bind_some]
    exact checkInt_eq_ite (by omega)
  · rw [if_neg hle, if_neg (by omega)]
    rfl

/-- The product overflows in `DecodeString`. -/
theorem bufferSize_decodeString {inl : ℤ} (h0 : 0 ≤ inl) :
    bufferSize .decodeString inl = if inl * 3 ≤ intMax then some (inl * 3 / 4) else none := by
  rw [bufferSize, checkInt_eq_ite (by omega)]
  split_ifs
  · rfl
  · rfl

/-- Nothing overflows in `Encrypt`. -/
theorem bufferSize_encrypt {inl : ℤ} (h0 : 0 ≤ inl) (hle : inl ≤ intMax) :
    bufferSize .encrypt inl = some (inl + 16) := by
  have hsum : sizeAdd inl.toNat blockSize = inl.toNat + 16 :=
    sizeAdd_eq (by unfold intMax at hle; unfold blockSize; omega)
  rw [bufferSize, hsum]
  exact congrArg some (by omega)

/-- A buffer suffices when its size is computed and what is written fits. -/
theorem suffices_of_eq {b : Buffer} {inl size : ℤ} {c : Prop} [Decidable c]
    (hsize : bufferSize b inl = if c then some size else none) (hb : b.allocated inl = true) :
    Suffices b inl ↔ c ∧ bytesWritten b inl ≤ size := by
  rw [Suffices, imp_iff_right hb, hsize]
  split_ifs with hc
  · simp [hc]
  · simp [hc]

/-- In `EncodeToString` of bytes, a byte is missing when one byte is left after the last three. -/
theorem suffices_encodeBytes {inl : ℤ} (h0 : 0 ≤ inl) :
    Suffices .encodeBytes inl ↔ LengthOk .encodeBytes inl := by
  rw [suffices_of_eq (bufferSize_encodeBytes h0) rfl, bytesWritten, LengthOk]
  unfold intMax
  omega

/-- The size of `EncodeToString` of a string is too large, until it overflows, except for one byte.
-/
theorem suffices_encodeString {inl : ℤ} (h0 : 0 ≤ inl) :
    Suffices .encodeString inl ↔ LengthOk .encodeString inl := by
  by_cases hzero : inl = 0
  · rw [hzero]
    exact iff_of_true nofun (Or.inl rfl)
  · have hupper : inl * (inl * 4 / 3 + 3) ≤ intMax ↔ inl ≤ 40131 := by
      constructor
      · intro hle
        by_contra hgt
        have hlow : 40132 * 53512 ≤ inl * (inl * 4 / 3 + 3) :=
          mul_le_mul (by omega) (by omega) (by omega) h0
        unfold intMax at hle
        omega
      · intro hle
        have hhigh : inl * (inl * 4 / 3 + 3) ≤ 40131 * 53511 :=
          mul_le_mul hle (by omega) (by omega) (by omega)
        unfold intMax
        omega
    rw [suffices_of_eq (bufferSize_encodeString (by omega))
        (by simpa [Buffer.allocated] using hzero),
      hupper, bytesWritten, LengthOk, or_iff_right hzero, and_comm, and_congr_left_iff]
    intro hle
    constructor
    · intro hfits
      by_contra hlt
      obtain rfl : inl = 1 := by omega
      omega
    · intro h2
      have hlow : 2 * (inl * 4 / 3 + 3) ≤ inl * (inl * 4 / 3 + 3) :=
        mul_le_mul_of_nonneg_right h2 (by omega)
      omega

/-- The size of `DecodeString` suffices until it overflows. -/
theorem suffices_decodeString {inl : ℤ} (h0 : 0 ≤ inl) :
    Suffices .decodeString inl ↔ LengthOk .decodeString inl := by
  rw [suffices_of_eq (bufferSize_decodeString h0) rfl, bytesWritten, LengthOk]
  unfold intMax
  omega

/-- `Encrypt` clears more than it allocates when the input has more than a block. -/
theorem suffices_encrypt {inl : ℤ} (h0 : 0 ≤ inl) (hle : inl ≤ intMax) :
    Suffices .encrypt inl ↔ LengthOk .encrypt inl := by
  have hsize : bufferSize .encrypt inl = if True then some (inl + 16) else none :=
    (bufferSize_encrypt h0 hle).trans (if_pos trivial).symm
  rw [suffices_of_eq hsize rfl, true_and, bytesWritten, LengthOk]
  unfold blockSize
  omega

/-- Each size suffices for the lengths that are ok for it, and all four suffice exactly for the
lengths of at most a block that do not leave one byte after the last three. -/
theorem suffices_iff {inl : ℤ} (h0 : 0 ≤ inl) (hle : inl ≤ intMax) :
    (∀ b, Suffices b inl ↔ LengthOk b inl) ∧
      ((∀ b, Suffices b inl) ↔ inl ≤ 16 ∧ inl % 3 ≠ 1) := by
  have hall : ∀ b, Suffices b inl ↔ LengthOk b inl
    | .encodeBytes => suffices_encodeBytes h0
    | .encodeString => suffices_encodeString h0
    | .decodeString => suffices_decodeString h0
    | .encrypt => suffices_encrypt h0 hle
  refine ⟨hall, ?_⟩
  simp only [hall]
  constructor
  · exact fun h => ⟨h .encrypt, (h .encodeBytes).2⟩
  · rintro ⟨h16, hmod⟩ b
    cases b with
    | encodeBytes => exact ⟨by omega, hmod⟩
    | encodeString =>
      show inl = 0 ∨ 2 ≤ inl ∧ inl ≤ 40131
      omega
    | decodeString =>
      show inl ≤ 715827882
      omega
    | encrypt => exact h16

/-- The four sizes for an input of one block. -/
theorem suffices_iff_fifteen : (0 : ℤ) ≤ 15 ∧ 15 ≤ intMax ∧ ∀ b, Suffices b 15 :=
  ⟨by decide, by decide, (suffices_iff (by decide) (by decide)).2.mpr (by decide)⟩

/-- For one byte, `EncodeToString` writes five to a buffer of four. -/
theorem not_suffices_one : (0 : ℤ) ≤ 1 ∧ 1 ≤ intMax ∧ ¬ ∀ b, Suffices b 1 := by
  refine ⟨by decide, by decide, fun h => ?_⟩
  exact (suffices_encodeBytes (by decide)).mp (h .encodeBytes) |>.2 rfl

/-! ## The functions -/

section Model

variable {Key : Type} (evp : Evp Key)

/-- Both `EncodeToString` functions after `malloc`. -/
def encodeBuffer (bytes : List UInt8) (size : ℤ) : Option (List UInt8) :=
  let out := evp.encodeBlock bytes
  if size < out.length + 1 then none
  else if out = [] then some []
  else readCStr (out ++ [0])

/-- `EncodeToString` of the first `inl` bytes of some memory. -/
def encodeBytesToString (in_ : List UInt8) (inl : ℤ) : Option (List UInt8) :=
  if inl < 0 ∨ in_.length < inl then none
  else (bufferSize .encodeBytes inl).bind (encodeBuffer evp (in_.take inl.toNat))

/-- `EncodeToString` of a string, by the size of its buffer. -/
theorem encodeToString_eq_bind {in_ : List UInt8} (hne : in_ ≠ [])
    (hle : (in_.length : ℤ) ≤ intMax) :
    encodeToString evp in_ = (bufferSize .encodeString in_.length).bind (encodeBuffer evp in_) := by
  have hpos : 1 ≤ in_.length := List.length_pos_iff.mpr hne
  have hint : toInt in_.length = in_.length := toInt_of_nonneg (by omega) hle
  unfold encodeToString bufferSize
  simp only [if_neg hne, hint, Int.toNat_natCast, List.take_length]
  rw [if_neg (by omega)]
  cases hm : checkInt ((in_.length : ℤ) * 4) with
  | none => rfl
  | some m =>
    obtain rfl := eq_of_checkInt hm
    have hfits : (in_.length : ℤ) * 4 ≤ intMax := by
      by_contra hover
      rw [checkInt_eq_ite (by omega), if_neg hover] at hm
      exact nomatch hm
    have hblock : checkInt ((in_.length : ℤ) * 4 / 3 + 3) = some ((in_.length : ℤ) * 4 / 3 + 3) :=
      checkInt_of_nonneg (by omega) (by unfold intMax at hfits ⊢; omega)
    rw [Option.bind_some, Option.bind_some, hblock, Option.bind_some]
    rfl

/-- The buffer has room for the characters of the encoding and a NUL. -/
theorem encodeBuffer_isSome (h : evp.Documented) {bytes : List UInt8}
    (hle : (bytes.length : ℤ) * 4 ≤ intMax) (size : ℤ) :
    (encodeBuffer evp bytes size).isSome = true ↔
      4 * (((bytes.length : ℤ) + 2) / 3) + 1 ≤ size := by
  have hlen := Rfc4648.length_encode bytes
  have hblock := h.encodeBlock_eq bytes (by unfold intMax at hle ⊢; omega)
  have hread : readCStr (Rfc4648.encode bytes ++ [0]) = some (Rfc4648.encode bytes) := by
    rw [readCStr, if_pos (by simp), cstr_append_zero,
      cstr_eq_self (Rfc4648.zero_notMem_encode bytes)]
  rw [encodeBuffer, hblock, hread]
  split_ifs with hsize hnil
  · exact iff_of_false Bool.false_ne_true (by omega)
  · exact iff_of_true rfl (by omega)
  · exact iff_of_true rfl (by omega)

/-- `EncodeToString` of bytes is defined exactly when the buffer suffices. -/
theorem encodeBytesToString_isSome (h : evp.Documented) {in_ : List UInt8} {inl : ℤ} (h0 : 0 ≤ inl)
    (hle : inl ≤ in_.length) :
    (encodeBytesToString evp in_ inl).isSome = true ↔ Suffices .encodeBytes inl := by
  rw [encodeBytesToString, if_neg (by omega), suffices_of_eq (bufferSize_encodeBytes h0) rfl,
    bufferSize_encodeBytes h0, bytesWritten]
  split_ifs with hmul
  · have htake : ((in_.take inl.toNat).length : ℤ) = inl := by
      rw [List.length_take]
      omega
    rw [Option.bind_some, encodeBuffer_isSome evp h (by rw [htake]; exact hmul), htake,
      and_iff_right hmul]
  · exact iff_of_false nofun fun hand => hmul hand.1

/-- `EncodeToString` of a string is defined exactly when the buffer suffices. -/
theorem encodeToString_isSome (h : evp.Documented) {in_ : List UInt8}
    (hle : (in_.length : ℤ) ≤ intMax) :
    (encodeToString evp in_).isSome = true ↔ Suffices .encodeString in_.length := by
  by_cases hne : in_ = []
  · rw [hne]
    exact iff_of_true rfl nofun
  · have hpos : 1 ≤ in_.length := List.length_pos_iff.mpr hne
    have hone : (1 : ℤ) ≤ in_.length := Int.ofNat_le.mpr hpos
    have hsize := bufferSize_encodeString hone
    rw [encodeToString_eq_bind evp hne hle,
      suffices_of_eq hsize (by simpa [Buffer.allocated] using hne),
      hsize, bytesWritten]
    split_ifs with hmul
    · have hfactor : (in_.length : ℤ) * 4 ≤ in_.length * (in_.length * 4 / 3 + 3) :=
        mul_le_mul_of_nonneg_left (by omega) (by omega)
      rw [Option.bind_some, encodeBuffer_isSome evp h (by omega), and_iff_right hmul]
    · exact iff_of_false nofun fun hand => hmul hand.1

/-- `Encrypt` is undefined when its calls before the encryption succeed and the buffer does not
suffice. -/
theorem Encrypt_eq_none {salt content passphrase : List UInt8}
    (hle : (content.length : ℤ) ≤ intMax)
    (hready : EncryptReady evp (evp.bytesToKey salt passphrase))
    (hnot : ¬ Suffices .encrypt content.length) : Encrypt evp salt content passphrase = none := by
  rw [suffices_encrypt (by omega) hle, LengthOk] at hnot
  rw [Encrypt_of_ready evp hready, if_pos (by unfold blockSize; omega)]

/-- `DecodeString` when its buffer suffices and what `EVP_DecodeBlock` writes is as documented. -/
theorem decodeString_eq (hwrites : ∀ chars out, evp.decodeBlock chars = some out →
      (out.length : ℤ) = bytesWritten .decodeString chars.length) {in_ : List UInt8}
    (hle : (in_.length : ℤ) ≤ intMax) (hsuffices : Suffices .decodeString in_.length) :
    decodeString evp in_ = ((evp.decodeBlock in_).elim (some []) fun out =>
      if out = [] then some [] else readCStr out) := by
  obtain ⟨size, hsize, hfits⟩ := hsuffices rfl
  have hint : toInt in_.length = in_.length := toInt_of_nonneg (by omega) hle
  obtain ⟨m, hm, rfl⟩ := Option.map_eq_some_iff.mp hsize
  unfold decodeString
  simp only [hint, Int.toNat_natCast, List.take_length]
  rw [if_neg (by omega), hm, Option.bind_some]
  cases hblock : evp.decodeBlock in_ with
  | none => rfl
  | some out =>
    have hout := hwrites _ _ hblock
    dsimp only [Option.elim]
    rw [if_neg (by omega)]

end Model

end CxxPandora.Openssl
