import CxxPandora.Lib.Bytes
import CxxPandora.Lib.Rfc4648
import CxxPandora.Lib.Words
import CxxPandora.Openssl.Base64

/-!
# Encryption with a passphrase

`Encrypt` and `Decrypt` of `demos/openssl/evp_cipher.cpp`, over the functions of OpenSSL that they
call (`Evp`) and what the documentation says about these (`Evp.Documented`). `malloc` does not fail.
An access out of the bounds of an object, an overflow, and a string whose length is a negative `int`
are undefined (`none`). `roundTrips_iff` says for which contents and salts `Decrypt` inverts
`Encrypt`: the decoded bytes go through a C string, and a buffer is cleared beyond its end.
-/

namespace CxxPandora.Openssl

open Lib

/-! ## OpenSSL -/

/-- The functions of OpenSSL, with whether they succeed, and the bytes that they write. -/
structure Evp (Key : Type) where
  /-- `EVP_get_cipherbyname("aes-256-cbc")` finds the cipher. -/
  getCipherbyname : Bool
  /-- `EVP_CIPHER_CTX_new` in `Encrypt`. -/
  encryptCtxNew : Bool
  /-- `EVP_CIPHER_CTX_new` in `Decrypt`. -/
  decryptCtxNew : Bool
  /-- `EVP_BytesToKey`, of the salt and the passphrase: the key and the initialization vector. -/
  bytesToKey : List UInt8 → List UInt8 → Key
  encryptInit : Key → Bool
  encryptUpdate : Key → List UInt8 → Option (List UInt8)
  /-- `EVP_EncryptFinal` after `EVP_EncryptUpdate` of these bytes. -/
  encryptFinal : Key → List UInt8 → Option (List UInt8)
  decryptInit : Key → Bool
  decryptUpdate : Key → List UInt8 → List UInt8
  /-- `EVP_DecryptFinal` after `EVP_DecryptUpdate` of these bytes. -/
  decryptFinal : Key → List UInt8 → List UInt8
  /-- The characters that `EVP_EncodeBlock` writes before a NUL. -/
  encodeBlock : List UInt8 → List UInt8
  /-- The bytes that `EVP_DecodeBlock` writes, unless it returns -1. -/
  decodeBlock : List UInt8 → Option (List UInt8)

/-- `EVP_CIPHER_get_block_size` of the cipher. -/
def blockSize : ℕ := 16

/-- What the two encryption calls write, if both succeed. -/
def Evp.cipherText {Key : Type} (evp : Evp Key) (key : Key) (content : List UInt8) :
    Option (List UInt8) :=
  (evp.encryptUpdate key content).bind fun out => (evp.encryptFinal key content).map (out ++ ·)

/-- What the two decryption calls write. -/
def Evp.plainText {Key : Type} (evp : Evp Key) (key : Key) (bytes : List UInt8) : List UInt8 :=
  evp.decryptUpdate key bytes ++ evp.decryptFinal key bytes

/-- What is documented. -/
structure Evp.Documented {Key : Type} (evp : Evp Key) : Prop where
  /-- The padding completes the last block, or is a block. -/
  length_cipherText : ∀ key content bytes, evp.cipherText key content = some bytes →
    bytes.length = 16 * (content.length / 16 + 1)
  /-- Decryption inverts encryption. -/
  plainText_cipherText : ∀ key content bytes, evp.cipherText key content = some bytes →
    evp.plainText key bytes = content
  /-- When the last block is not complete, the blocks before it are decrypted, and
  `EVP_DecryptFinal` fails. -/
  plainText_partial : ∀ key content bytes m, evp.cipherText key content = some bytes →
    m < bytes.length → m = 0 ∨ m % 16 ≠ 0 →
    evp.plainText key (bytes.take m) = content.take (16 * (m / 16))
  /-- When the last block is complete, at least one byte of it is removed as padding, or
  `EVP_DecryptFinal` fails. -/
  plainText_blocks : ∀ key content bytes m, evp.cipherText key content = some bytes →
    m < bytes.length → 0 < m → m % 16 = 0 → (evp.plainText key (bytes.take m)).length < m
  /-- `EVP_EncodeBlock` is padded base64. -/
  encodeBlock_eq : ∀ bytes : List UInt8, ((Rfc4648.encode bytes).length : ℤ) ≤ intMax →
    evp.encodeBlock bytes = Rfc4648.encode bytes
  /-- `EVP_DecodeBlock` writes three bytes for every four characters, the padding as zeros. -/
  decodeBlock_encode : ∀ bytes : List UInt8, ((Rfc4648.encode bytes).length : ℤ) ≤ intMax →
    evp.decodeBlock (Rfc4648.encode bytes) =
      some (bytes ++ List.replicate ((3 - bytes.length % 3) % 3) 0)

/-! ## The model -/

section Model

variable {Key : Type} (evp : Evp Key)

/-- `"Salted__"`. -/
def magic : List UInt8 := [83, 97, 108, 116, 101, 100, 95, 95]

/-- `EncodeToString` of a string. -/
def encodeToString (in_ : List UInt8) : Option (List UInt8) :=
  if in_ = [] then some []
  else
    let inl := toInt in_.length
    if inl < 0 then none
    else
      (checkInt (inl * 4)).bind fun m =>
        -- The size that is passed to `malloc`; the characters and a NUL are written there.
        (checkInt (inl * (m / 3 + 3))).bind fun size =>
          let out := evp.encodeBlock (in_.take inl.toNat)
          if size < out.length + 1 then none
          else if out = [] then some []
          else readCStr (out ++ [0])

/-- `DecodeString`. The result is read from `out` as a C string. -/
def decodeString (in_ : List UInt8) : Option (List UInt8) :=
  let inl := toInt in_.length
  if inl < 0 then none
  else
    (checkInt (inl * 3)).bind fun size =>
      -- `EVP_DecodeBlock` writes to the `inl * 3 / 4` bytes that are allocated.
      match evp.decodeBlock (in_.take inl.toNat) with
      | none => some []
      | some out =>
        if size / 4 < out.length then none
        else if out = [] then some []
        else readCStr out

/-- `Encrypt`, with the salt that `RAND_bytes` stores: `cipher_content`, or `none` when it returns
false. `out` has `inl + block_size` bytes, and `memset` clears `inl * 2`. For the contents that are
left after this, the conversion of `inl` to `int` is exact. -/
def Encrypt (salt content passphrase : List UInt8) : Option (Option (List UInt8)) :=
  if evp.getCipherbyname = false then some none
  else
    let key := evp.bytesToKey salt passphrase
    if evp.encryptCtxNew = false ∨ evp.encryptInit key = false then some none
    else
      let inl := content.length
      -- `memset(out, 0, inl * 2)`.
      if inl + blockSize < inl * 2 then none
      else
        match evp.cipherText key content with
        | none => some none
        | some out =>
          if inl + blockSize < out.length then none
          else (encodeToString evp (magic ++ salt ++ out)).map some

/-- `Decrypt`: `content`, or `none` when it returns false. `memcpy` copies bytes 8 to 15 of the C
string of `bd`, which ends with a NUL. `EVP_DecryptUpdate` fails for a negative `inl`, and writes
nothing. -/
def Decrypt (cipher_content passphrase : List UInt8) : Option (Option (List UInt8)) :=
  if evp.getCipherbyname = false ∨ evp.decryptCtxNew = false then some none
  else
    (decodeString evp cipher_content).bind fun bd =>
      if bd.length + 1 < 16 then none
      else
        let salt := ((bd ++ [0]).drop 8).take 8
        let key := evp.bytesToKey salt passphrase
        if evp.decryptInit key = false then some none
        else
          -- All that follows the header, -1 when only the NUL is left of its last byte.
          let inl := toInt (sizeSub bd.length 16)
          (checkInt (inl + blockSize)).bind fun size =>
            let out := evp.plainText key ((bd.drop 16).take inl.toNat)
            if size < out.length then none else some (some out)

/-- `Encrypt` does nothing undefined, and when it returns true, `Decrypt` returns true with the
content. -/
def RoundTrips (salt content passphrase : List UInt8) : Prop :=
  ∃ result, Encrypt evp salt content passphrase = some result ∧
    ∀ cipher_content, result = some cipher_content →
      Decrypt evp cipher_content passphrase = some (some content)

/-- The calls before the encryption succeed in `Encrypt`. -/
def EncryptReady (key : Key) : Prop :=
  evp.getCipherbyname = true ∧ evp.encryptCtxNew = true ∧ evp.encryptInit key = true

/-- The calls before the decryption succeed in `Decrypt`. -/
def DecryptReady (key : Key) : Prop := evp.decryptCtxNew = true ∧ evp.decryptInit key = true

/-- The bytes that survive the C string are decrypted to the content. -/
def Survives (salt content cipherText : List UInt8) : Prop :=
  content = [] ∧ 0 ∉ salt.take 7 ∨
    content.length < 16 ∧ 0 ∉ salt ∧ 0 ∉ cipherText ∨
    content.length = 16 ∧ 0 ∉ salt ∧ 0 ∈ cipherText ∧ 16 < (cstr cipherText).length

/-- It can be decided which bytes survive. -/
instance (salt content cipherText : List UInt8) : Decidable (Survives salt content cipherText) :=
  inferInstanceAs (Decidable (_ ∨ _ ∨ _))

/-! ## Base64 -/

/-- `EncodeToString` computes the encoding. The lengths are those that `Encrypt` calls it for, where
the `int` arithmetic does not overflow. -/
theorem encodeToString_eq (h : evp.Documented) {bytes : List UInt8} (hpos : 2 ≤ bytes.length)
    (hle : bytes.length ≤ 48) :
    encodeToString evp bytes = some (Rfc4648.encode bytes) := by
  have hne : bytes ≠ [] := List.ne_nil_of_length_pos (by omega)
  have hlen := Rfc4648.length_encode bytes
  have hint : toInt bytes.length = bytes.length :=
    toInt_of_nonneg (by omega) (by unfold intMax; omega)
  have hblock := h.encodeBlock_eq bytes (by unfold intMax; omega)
  -- The size that is allocated is `bytes.length` times one that is itself too large.
  have hlow : 2 * ((bytes.length : ℤ) * 4 / 3 + 3) ≤ bytes.length * (bytes.length * 4 / 3 + 3) :=
    mul_le_mul_of_nonneg_right (by omega) (by omega)
  have hhigh : (bytes.length : ℤ) * (bytes.length * 4 / 3 + 3) ≤ 48 * (bytes.length * 4 / 3 + 3) :=
    mul_le_mul_of_nonneg_right (by omega) (by omega)
  have hencode : Rfc4648.encode bytes ≠ [] := List.ne_nil_of_length_pos (by omega)
  have hread : readCStr (Rfc4648.encode bytes ++ [0]) = some (Rfc4648.encode bytes) := by
    rw [readCStr, if_pos (by simp), cstr_append_zero,
      cstr_eq_self (Rfc4648.zero_notMem_encode bytes)]
  have hm : checkInt ((bytes.length : ℤ) * 4) = some ((bytes.length : ℤ) * 4) :=
    checkInt_eq (by omega) (by omega)
  have hsize : checkInt ((bytes.length : ℤ) * (bytes.length * 4 / 3 + 3)) =
      some ((bytes.length : ℤ) * (bytes.length * 4 / 3 + 3)) :=
    checkInt_eq (by omega) (by omega)
  unfold encodeToString
  simp only [if_neg hne, hint, hm, hsize, Option.bind_some, Int.toNat_natCast, List.take_length,
    hblock]
  rw [if_neg (by omega), if_neg (by omega), if_neg hencode, hread]

/-- `DecodeString` of an encoding reads a C string from the bytes, with the zeros for the padding.
-/
theorem decodeString_encode (h : evp.Documented) {bytes : List UInt8} (hne : bytes ≠ [])
    (hle : bytes.length ≤ 48) :
    decodeString evp (Rfc4648.encode bytes) =
      readCStr (bytes ++ List.replicate ((3 - bytes.length % 3) % 3) 0) := by
  have hlen := Rfc4648.length_encode bytes
  have hint : toInt (Rfc4648.encode bytes).length = (Rfc4648.encode bytes).length :=
    toInt_of_nonneg (by omega) (by unfold intMax; omega)
  have hblock := h.decodeBlock_encode bytes (by unfold intMax; omega)
  have hsize : checkInt (((Rfc4648.encode bytes).length : ℤ) * 3) =
      some (((Rfc4648.encode bytes).length : ℤ) * 3) :=
    checkInt_eq (by omega) (by omega)
  unfold decodeString
  simp only [hint, hsize, Option.bind_some, Int.toNat_natCast, List.take_length, hblock]
  rw [if_neg (by omega), if_neg, if_neg]
  · simp [hne]
  · rw [List.length_append, List.length_replicate]
    omega

/-! ## `Encrypt` -/

/-- `Encrypt` returns false when a call before the encryption fails. -/
theorem Encrypt_of_not_ready {salt content passphrase : List UInt8}
    (h : ¬ EncryptReady evp (evp.bytesToKey salt passphrase)) :
    Encrypt evp salt content passphrase = some none := by
  unfold EncryptReady at h
  unfold Encrypt
  by_cases hcipher : evp.getCipherbyname = true
  · rw [if_neg (by simp [hcipher]), if_pos]
    simpa [hcipher, imp_iff_not_or] using h
  · exact if_pos (by simpa using hcipher)

/-- `Encrypt` when the calls before the encryption succeed. -/
theorem Encrypt_of_ready {salt content passphrase : List UInt8}
    (h : EncryptReady evp (evp.bytesToKey salt passphrase)) :
    Encrypt evp salt content passphrase =
      if content.length + blockSize < content.length * 2 then none
      else
        match evp.cipherText (evp.bytesToKey salt passphrase) content with
        | none => some none
        | some out =>
          if content.length + blockSize < out.length then none
          else (encodeToString evp (magic ++ salt ++ out)).map some := by
  obtain ⟨hcipher, hctx, hinit⟩ := h
  unfold Encrypt
  rw [if_neg (by simp [hcipher]), if_neg (by simp [hctx, hinit])]

/-- The length of what `Encrypt` encodes. -/
theorem length_magic_append {salt : List UInt8} (hsalt : salt.length = 8) (bytes : List UInt8) :
    (magic ++ salt ++ bytes).length = 16 + bytes.length := by
  have hmagic : magic.length = 8 := rfl
  rw [List.length_append, List.length_append, hmagic, hsalt]

/-- `Encrypt` of a content that has at most a block. -/
theorem Encrypt_eq (h : evp.Documented) {salt content passphrase ct : List UInt8}
    (hsalt : salt.length = 8) (hle : content.length ≤ 16)
    (hready : EncryptReady evp (evp.bytesToKey salt passphrase))
    (hct : evp.cipherText (evp.bytesToKey salt passphrase) content = some ct) :
    Encrypt evp salt content passphrase = some (some (Rfc4648.encode (magic ++ salt ++ ct))) := by
  have hlen := h.length_cipherText _ _ _ hct
  have hbytes := length_magic_append hsalt ct
  rw [Encrypt_of_ready evp hready, if_neg (by unfold blockSize; omega), hct]
  dsimp only
  rw [if_neg (by unfold blockSize; omega), encodeToString_eq evp h (by omega) (by omega),
    Option.map_some]

/-! ## `Decrypt` -/

/-- The length of what follows the header, as `Decrypt` computes it. -/
theorem toInt_sizeSub {n : ℕ} (h : n ≤ 48) : toInt (sizeSub n 16) = (n : ℤ) - 16 := by
  unfold toInt sizeSub
  rw [Int.bmod_def]
  split_ifs <;> omega

/-- `Decrypt` stores a content exactly when the decoded bytes have a header, the calls succeed, and
what follows the header is decrypted to the content. -/
theorem Decrypt_iff {cipher_content passphrase bd content : List UInt8}
    (hcipher : evp.getCipherbyname = true) (hbd : decodeString evp cipher_content = some bd)
    (hle : bd.length ≤ 48) {key : Key}
    (hkey : key = evp.bytesToKey (((bd ++ [0]).drop 8).take 8) passphrase)
    (hplain : 15 ≤ bd.length → (evp.plainText key (bd.drop 16)).length ≤ bd.length) :
    Decrypt evp cipher_content passphrase = some (some content) ↔
      15 ≤ bd.length ∧ DecryptReady evp key ∧ evp.plainText key (bd.drop 16) = content := by
  unfold Decrypt DecryptReady
  by_cases hctx : evp.decryptCtxNew = true
  · rw [if_neg (by simp [hcipher, hctx]), hbd, Option.bind_some]
    dsimp only
    rw [← hkey]
    by_cases hlen : 15 ≤ bd.length
    · rw [if_neg (by omega)]
      by_cases hinit : evp.decryptInit key = true
      · -- All of `bd` after the header is decrypted, and nothing when the header has no last byte.
        have htake : (bd.drop 16).take ((bd.length : ℤ) - 16).toNat = bd.drop 16 :=
          List.take_of_length_le (by rw [List.length_drop]; omega)
        have hsize : checkInt ((bd.length : ℤ) - 16 + blockSize) = some (bd.length : ℤ) := by
          have hsum : (bd.length : ℤ) - 16 + blockSize = bd.length := by unfold blockSize; omega
          rw [hsum]
          exact checkInt_eq (by omega) (by omega)
        have hfits := hplain hlen
        rw [if_neg (by simp [hinit]), toInt_sizeSub hle, hsize, Option.bind_some, htake,
          if_neg (by omega)]
        simp [hlen, hctx, hinit]
      · rw [if_pos (by simpa using hinit)]
        simp [hinit]
    · rw [if_pos (by omega)]
      simp [hlen]
  · rw [if_pos (Or.inr (by simpa using hctx))]
    simp [hctx]

/-- What is decrypted of a ciphertext of one or two blocks that has been cut: not more than the
content, and the content if it is empty, or fills the first block and a byte of the second is left.
-/
theorem plainText_take (h : evp.Documented) {key : Key} {content ct : List UInt8}
    (hle : content.length ≤ 16) (hct : evp.cipherText key content = some ct) {m : ℕ}
    (hm : m < ct.length) :
    (evp.plainText key (ct.take m)).length ≤ 16 ∧
      (evp.plainText key (ct.take m) = content ↔
        content = [] ∨ content.length = 16 ∧ 16 < m) := by
  have hlen := h.length_cipherText _ _ _ hct
  -- Cut inside a block, or at the end of one.
  by_cases hpartial : m = 0 ∨ m % 16 ≠ 0
  · rw [h.plainText_partial _ _ _ m hct hm hpartial, List.take_eq_self_iff, List.length_take,
      ← List.length_eq_zero_iff]
    omega
  · rw [not_or, not_not] at hpartial
    have hless := h.plainText_blocks _ _ _ m hct hm (by omega) hpartial.2
    refine ⟨by omega, ?_⟩
    constructor
    · intro heq
      rw [heq] at hless
      omega
    · rintro (rfl | ⟨-, h16⟩)
      · rw [List.length_nil] at hlen
        omega
      · omega

/-- A salt whose only zero byte is the last. -/
theorem eq_take_append_zero {salt : List UInt8} (hsalt : salt.length = 8) (h0 : 0 ∈ salt)
    (h7 : 0 ∉ salt.take 7) : salt = salt.take 7 ++ [0] := by
  have hlast : (salt.drop 7).length = 1 := by rw [List.length_drop, hsalt]
  obtain ⟨c, hc⟩ := List.length_eq_one_iff.mp hlast
  rw [← List.take_append_drop 7 salt, hc, List.mem_append, List.mem_singleton] at h0
  obtain rfl : 0 = c := h0.resolve_left h7
  rw [← hc, List.take_append_drop]

/-- What `DecodeString` returns for the result of `Encrypt`, when the salt has a zero byte. -/
theorem decodeString_of_mem_salt (h : evp.Documented) {salt ct : List UInt8}
    (hsalt : salt.length = 8) (hct : ct.length ≤ 32) (h0 : 0 ∈ salt) :
    decodeString evp (Rfc4648.encode (magic ++ salt ++ ct)) = some (magic ++ cstr salt) := by
  have hbytes := length_magic_append hsalt ct
  have hne : magic ++ salt ++ ct ≠ [] := List.ne_nil_of_length_pos (by omega)
  rw [decodeString_encode evp h hne (by omega), readCStr, if_pos (by simp [h0]), List.append_assoc,
    List.append_assoc, cstr_append_of_notMem (by decide), cstr_append_of_mem h0]

/-- What `DecodeString` returns for the result of `Encrypt`, when the first zero byte is in the
ciphertext. -/
theorem decodeString_of_mem_cipherText (h : evp.Documented) {salt ct : List UInt8}
    (hsalt : salt.length = 8) (hct : ct.length ≤ 32) (hno : 0 ∉ salt) (h0 : 0 ∈ ct) :
    decodeString evp (Rfc4648.encode (magic ++ salt ++ ct)) =
      some (magic ++ salt ++ ct.take (cstr ct).length) := by
  have hbytes := length_magic_append hsalt ct
  have hne : magic ++ salt ++ ct ≠ [] := List.ne_nil_of_length_pos (by omega)
  rw [decodeString_encode evp h hne (by omega), readCStr, if_pos (by simp [h0]), List.append_assoc,
    cstr_append_of_notMem (by simp [hno, magic]), cstr_append_of_mem h0, ← cstr_eq_take]

/-- What `DecodeString` returns for the result of `Encrypt`, when there is no zero byte before the
padding: all bytes if there is any padding. -/
theorem decodeString_of_notMem (h : evp.Documented) {salt ct : List UInt8}
    (hsalt : salt.length = 8) (hct : ct.length ≤ 32) (hno : 0 ∉ salt) (h0 : 0 ∉ ct) :
    decodeString evp (Rfc4648.encode (magic ++ salt ++ ct)) =
      if (16 + ct.length) % 3 = 0 then none else some (magic ++ salt ++ ct) := by
  have hbytes := length_magic_append hsalt ct
  have hne : magic ++ salt ++ ct ≠ [] := List.ne_nil_of_length_pos (by omega)
  have hall : 0 ∉ magic ++ salt ++ ct := by simp [hno, h0, magic]
  rw [decodeString_encode evp h hne (by omega), readCStr, cstr_append_of_notMem hall, hbytes]
  by_cases hmod : (16 + ct.length) % 3 = 0
  · rw [if_pos hmod, if_neg]
    rw [hmod, List.mem_append, not_or]
    exact ⟨hall, by decide⟩
  · obtain ⟨k, hk⟩ : ∃ k, (3 - (16 + ct.length) % 3) % 3 = k + 1 :=
      Nat.exists_eq_add_one.mpr (by omega)
    rw [if_neg hmod, hk, List.replicate_succ, if_pos (by simp)]
    exact congrArg some (List.append_nil _)

/-! ## `Decrypt` after `Encrypt` -/

/-- The header, and the salt that `Decrypt` finds in it. -/
theorem salt_of_header {salt : List UInt8} (hsalt : salt.length = 8) (bytes : List UInt8) :
    (magic ++ salt ++ bytes).drop 16 = bytes ∧
      ((magic ++ salt ++ bytes ++ [0]).drop 8).take 8 = salt := by
  have hmagic : magic.length = 8 := rfl
  constructor
  · exact List.drop_left' (by rw [List.length_append, hmagic, hsalt])
  · rw [List.append_assoc, List.append_assoc, List.drop_left' hmagic, List.take_left' hsalt]

/-- When the salt has a zero byte, `Decrypt` has no ciphertext, and it has the salt only if that
byte is the last, which `memcpy` copies from the end of the string. -/
theorem Decrypt_of_mem_salt (h : evp.Documented) {salt content passphrase ct : List UInt8}
    (hsalt : salt.length = 8) (hle : content.length ≤ 16) (hcipher : evp.getCipherbyname = true)
    (hct : evp.cipherText (evp.bytesToKey salt passphrase) content = some ct) (hs : 0 ∈ salt) :
    Decrypt evp (Rfc4648.encode (magic ++ salt ++ ct)) passphrase = some (some content) ↔
      DecryptReady evp (evp.bytesToKey salt passphrase) ∧ content = [] ∧ 0 ∉ salt.take 7 := by
  have hlen := h.length_cipherText _ _ _ hct
  have hmagic : magic.length = 8 := rfl
  have hbd := decodeString_of_mem_salt evp h hsalt (show ct.length ≤ 32 by omega) hs
  have hbdlen : (magic ++ cstr salt).length = 8 + (cstr salt).length := by
    rw [List.length_append, hmagic]
  have hcut := length_cstr_lt hs
  by_cases h7 : 0 ∈ salt.take 7
  · -- The header is cut before the last byte of the salt.
    have hcut7 := length_cstr_lt_of_mem_take h7
    rw [Decrypt_iff evp hcipher hbd (by omega) rfl (fun h15 => by omega)]
    constructor
    · rintro ⟨h15, -⟩
      omega
    · rintro ⟨-, -, hno⟩
      exact absurd h7 hno
  · -- Only the last byte of the salt is missing, and nothing is left to decrypt.
    have hsplit := eq_take_append_zero hsalt hs h7
    have hcstr : cstr salt = salt.take 7 := by
      rw [hsplit, cstr_append_zero, cstr_eq_self h7, ← hsplit]
    have htake : (salt.take 7).length = 7 := List.length_take_of_le (by omega)
    have hnil : evp.plainText (evp.bytesToKey salt passphrase) [] = [] :=
      h.plainText_partial _ _ _ 0 hct (by omega) (Or.inl rfl)
    have hdrop : (magic ++ cstr salt).drop 16 = [] := List.drop_of_length_le (by omega)
    have hkey : ((magic ++ cstr salt ++ [0]).drop 8).take 8 = salt := by
      rw [hcstr, List.append_assoc, ← hsplit, List.drop_left' hmagic,
        List.take_of_length_le (by omega)]
    rw [Decrypt_iff evp hcipher hbd (by omega) (by rw [hkey])
      (fun _ => by rw [hdrop, hnil]; exact Nat.zero_le _), hdrop, hnil]
    rw [hcstr, htake] at hbdlen
    rw [hcstr, hbdlen]
    constructor
    · rintro ⟨-, hready, hc⟩
      exact ⟨hready, hc.symm, h7⟩
    · rintro ⟨hready, hc, -⟩
      exact ⟨le_refl 15, hready, hc.symm⟩

/-- When the first zero byte is in the ciphertext, `Decrypt` decrypts what precedes it. -/
theorem Decrypt_of_mem_cipherText (h : evp.Documented) {salt content passphrase ct : List UInt8}
    (hsalt : salt.length = 8) (hle : content.length ≤ 16) (hcipher : evp.getCipherbyname = true)
    (hct : evp.cipherText (evp.bytesToKey salt passphrase) content = some ct) (hs : 0 ∉ salt)
    (hc : 0 ∈ ct) :
    Decrypt evp (Rfc4648.encode (magic ++ salt ++ ct)) passphrase = some (some content) ↔
      DecryptReady evp (evp.bytesToKey salt passphrase) ∧
        (content = [] ∨ content.length = 16 ∧ 16 < (cstr ct).length) := by
  have hlen := h.length_cipherText _ _ _ hct
  have hbd := decodeString_of_mem_cipherText evp h hsalt (by omega) hs hc
  have hcut := length_cstr_lt hc
  have hbdlen := length_magic_append hsalt (ct.take (cstr ct).length)
  rw [List.length_take_of_le (by omega)] at hbdlen
  obtain ⟨hdrop, hkey⟩ := salt_of_header hsalt (ct.take (cstr ct).length)
  obtain ⟨hle16, hiff⟩ := plainText_take evp h hle hct hcut
  rw [Decrypt_iff evp hcipher hbd (by omega) (by rw [hkey]) (fun _ => by rw [hdrop]; omega), hdrop,
    hiff, hbdlen]
  exact and_iff_right (by omega)

/-- When neither the salt nor the ciphertext has a zero byte, the string ends in the padding, and a
ciphertext of two blocks has none. -/
theorem Decrypt_of_notMem (h : evp.Documented) {salt content passphrase ct : List UInt8}
    (hsalt : salt.length = 8) (hle : content.length ≤ 16) (hcipher : evp.getCipherbyname = true)
    (hct : evp.cipherText (evp.bytesToKey salt passphrase) content = some ct) (hs : 0 ∉ salt)
    (hc : 0 ∉ ct) :
    Decrypt evp (Rfc4648.encode (magic ++ salt ++ ct)) passphrase = some (some content) ↔
      DecryptReady evp (evp.bytesToKey salt passphrase) ∧ content.length < 16 := by
  have hlen := h.length_cipherText _ _ _ hct
  have hbd := decodeString_of_notMem evp h hsalt (by omega) hs hc
  by_cases h16 : content.length < 16
  · rw [if_neg (by omega)] at hbd
    have hbdlen := length_magic_append hsalt ct
    have hplain := h.plainText_cipherText _ _ _ hct
    obtain ⟨hdrop, hkey⟩ := salt_of_header hsalt ct
    rw [Decrypt_iff evp hcipher hbd (by omega) (by rw [hkey])
      (fun _ => by rw [hdrop, hplain]; omega), hdrop, hplain, hbdlen]
    constructor
    · rintro ⟨-, hready, -⟩
      exact ⟨hready, h16⟩
    · rintro ⟨hready, -⟩
      exact ⟨by omega, hready, rfl⟩
  · rw [if_pos (by omega)] at hbd
    refine iff_of_false ?_ fun hready => h16 hready.2
    unfold Decrypt
    rw [hbd, Option.bind_none]
    split_ifs
    · exact nofun
    · exact nofun

/-- `Decrypt` inverts `Encrypt` on a content of at most a block exactly when its calls succeed and
enough bytes survive the C string. -/
theorem Decrypt_encode_iff (h : evp.Documented) {salt content passphrase ct : List UInt8}
    (hsalt : salt.length = 8) (hle : content.length ≤ 16) (hcipher : evp.getCipherbyname = true)
    (hct : evp.cipherText (evp.bytesToKey salt passphrase) content = some ct) :
    Decrypt evp (Rfc4648.encode (magic ++ salt ++ ct)) passphrase = some (some content) ↔
      DecryptReady evp (evp.bytesToKey salt passphrase) ∧ Survives salt content ct := by
  unfold Survives
  -- By where the first zero byte is: in the salt, in the ciphertext, or in neither.
  by_cases hs : 0 ∈ salt
  · rw [Decrypt_of_mem_salt evp h hsalt hle hcipher hct hs]
    simp [hs]
  · have h7 : 0 ∉ salt.take 7 := fun hmem => hs (List.mem_of_mem_take hmem)
    by_cases hc : 0 ∈ ct
    · rw [Decrypt_of_mem_cipherText evp h hsalt hle hcipher hct hs hc]
      simp [hs, hc, h7]
    · rw [Decrypt_of_notMem evp h hsalt hle hcipher hct hs hc]
      have hempty : content = [] → content.length < 16 := by
        rintro rfl
        exact Nat.zero_lt_succ 15
      simp [hs, hc, h7, or_iff_right_of_imp hempty]

end Model

/-! ## Two salts -/

/-- `"dingjia"`. -/
def dingjia : List UInt8 := [100, 105, 110, 103, 106, 105, 97]

/-- `"S!C@U#T$E%C^H&8620"`. -/
def mainPassphrase : List UInt8 :=
  [83, 33, 67, 64, 85, 35, 84, 36, 69, 37, 67, 94, 72, 38, 56, 54, 50, 48]

/-- The salt of the string that `main` decrypts. -/
def mainSalt : List UInt8 := [176, 238, 198, 147, 179, 248, 13, 187]

/-- A salt for which the ciphertext has a zero byte. -/
def badSalt : List UInt8 := [1, 2, 3, 4, 5, 6, 7, 16]

/-- The ciphertexts of `"dingjia"` with the passphrase of `main`, by the salt. -/
def dingjiaCipherText (salt : List UInt8) : Option (List UInt8) :=
  if salt = mainSalt then
    some [23, 38, 237, 137, 10, 231, 234, 246, 104, 18, 52, 8, 24, 161, 211, 228]
  else if salt = badSalt then
    some [84, 40, 200, 252, 108, 150, 28, 0, 45, 219, 84, 107, 241, 34, 172, 187]
  else none

/-- OpenSSL on these inputs. The salt stands for the key and the initialization vector. -/
def mainEvp : Evp (List UInt8) where
  getCipherbyname := true
  encryptCtxNew := true
  decryptCtxNew := true
  bytesToKey salt _ := salt
  encryptInit _ := true
  encryptUpdate _ _ := some []
  encryptFinal key content := if content = dingjia then dingjiaCipherText key else none
  decryptInit _ := true
  decryptUpdate _ _ := []
  decryptFinal key bytes := if dingjiaCipherText key = some bytes then dingjia else []
  encodeBlock := Rfc4648.encode
  decodeBlock chars := (base64Decode (fun _ => 0) chars).map fun bytes =>
    bytes ++ List.replicate ((3 - bytes.length % 3) % 3) 0

/-- The ciphertexts are one block. -/
theorem length_dingjiaCipherText {salt ct : List UInt8} (h : dingjiaCipherText salt = some ct) :
    ct.length = 16 := by
  unfold dingjiaCipherText at h
  split_ifs at h
  · rw [← Option.some.inj h]
    rfl
  · rw [← Option.some.inj h]
    rfl

/-- What `mainEvp` encrypts. -/
theorem cipherText_mainEvp {key content ct : List UInt8}
    (h : mainEvp.cipherText key content = some ct) :
    content = dingjia ∧ dingjiaCipherText key = some ct := by
  have hfinal : (if content = dingjia then dingjiaCipherText key else none) = some ct := by
    rw [← h]
    exact Option.map_id'.symm
  split_ifs at hfinal with hc
  exact ⟨hc, hfinal⟩

/-- `mainEvp` is as documented. -/
theorem documented_mainEvp : mainEvp.Documented where
  length_cipherText := by
    intro key content ct h
    obtain ⟨rfl, hct⟩ := cipherText_mainEvp h
    exact length_dingjiaCipherText hct
  plainText_cipherText := by
    intro key content ct h
    obtain ⟨rfl, hct⟩ := cipherText_mainEvp h
    exact if_pos hct
  plainText_partial := by
    intro key content ct m h hm hpartial
    obtain ⟨rfl, hct⟩ := cipherText_mainEvp h
    have hlen := length_dingjiaCipherText hct
    have hne : dingjiaCipherText key ≠ some (ct.take m) := by
      intro htake
      have := length_dingjiaCipherText htake
      rw [List.length_take] at this
      omega
    have hzero : 16 * (m / 16) = 0 := by omega
    rw [hzero]
    exact if_neg hne
  plainText_blocks := by
    intro key content ct m h hm hpos hmod
    obtain ⟨-, hct⟩ := cipherText_mainEvp h
    have hlen := length_dingjiaCipherText hct
    omega
  encodeBlock_eq := fun _ _ => rfl
  decodeBlock_encode := by
    intro bytes h
    show (base64Decode _ _).map _ = _
    rw [base64Decode_encode _ h, Option.map_some]

/-! ## The round trip -/

/-- The round trip succeeds exactly when `Encrypt` fails before it encrypts, or the content has at
most a block, and, if it is encrypted, the calls of `Decrypt` succeed and enough bytes survive the C
string. -/
theorem roundTrips_iff {Key : Type} (evp : Evp Key) (h : evp.Documented) {salt : List UInt8}
    (hsalt : salt.length = 8) (content passphrase : List UInt8) :
    RoundTrips evp salt content passphrase ↔
      ¬ EncryptReady evp (evp.bytesToKey salt passphrase) ∨
        content.length ≤ 16 ∧
          ∀ ct, evp.cipherText (evp.bytesToKey salt passphrase) content = some ct →
            DecryptReady evp (evp.bytesToKey salt passphrase) ∧ Survives salt content ct := by
  unfold RoundTrips
  by_cases hready : EncryptReady evp (evp.bytesToKey salt passphrase)
  · rw [or_iff_right (not_not_intro hready)]
    by_cases hle : content.length ≤ 16
    · rw [and_iff_right hle]
      cases hct : evp.cipherText (evp.bytesToKey salt passphrase) content with
      | none =>
        have hfalse : Encrypt evp salt content passphrase = some none := by
          rw [Encrypt_of_ready evp hready, if_neg (by unfold blockSize; omega), hct]
        simp [hfalse]
      | some ct =>
        have hiff := Decrypt_encode_iff evp h hsalt hle hready.1 hct
        rw [Encrypt_eq evp h hsalt hle hready hct]
        constructor
        · rintro ⟨result, hresult, hdec⟩ ct' hct'
          rw [← Option.some.inj hct']
          exact hiff.mp (hdec _ (Option.some.inj hresult).symm)
        · intro hsurvives
          refine ⟨_, rfl, fun c hc => ?_⟩
          rw [← Option.some.inj hc]
          exact hiff.mpr (hsurvives ct rfl)
    · -- `memset` clears beyond the end of `out`.
      have hnone : Encrypt evp salt content passphrase = none := by
        rw [Encrypt_of_ready evp hready, if_pos (by unfold blockSize; omega)]
      simp [hnone, hle]
  · simp [Encrypt_of_not_ready evp hready, hready]

/-- The round trip with the salt of `main`. -/
theorem roundTrips_iff_mainSalt : RoundTrips mainEvp mainSalt dingjia mainPassphrase :=
  (roundTrips_iff mainEvp documented_mainEvp rfl dingjia mainPassphrase).mpr
    (Or.inr ⟨by decide, fun ct hct => ⟨⟨rfl, rfl⟩, Option.some.inj hct ▸ by decide⟩⟩)

/-- With the other salt, `Encrypt` returns true, and `Decrypt` returns true with no content. -/
theorem not_roundTrips_badSalt :
    mainEvp.Documented ∧ badSalt.length = 8 ∧
      ¬ RoundTrips mainEvp badSalt dingjia mainPassphrase := by
  refine ⟨documented_mainEvp, rfl, ?_⟩
  rintro ⟨result, hresult, hdec⟩
  rw [Encrypt_eq mainEvp documented_mainEvp rfl (by decide) ⟨rfl, rfl, rfl⟩ rfl] at hresult
  have hsurvives := (Decrypt_of_mem_cipherText mainEvp documented_mainEvp rfl (by decide) rfl rfl
    (by decide) (by decide)).mp (hdec _ (Option.some.inj hresult).symm)
  exact absurd hsurvives.2 (by decide)

end CxxPandora.Openssl
