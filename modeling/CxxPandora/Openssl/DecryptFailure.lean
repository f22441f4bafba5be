import CxxPandora.Openssl.EvpCipher

/-!
# Failures of `Decrypt`

`Decrypt` of `demos/openssl/evp_cipher.cpp` returns false when the calls before the decryption fail,
as `Encrypt` does. It does not look at the results of `EVP_DecryptUpdate` and `EVP_DecryptFinal`,
which `Encrypt` does for their counterparts, nor at the header, nor at the length of the decoded
string. `decryptRun` records what a run returns, the lengths that it computes, and whether one of
the two calls fails. `failsSafely_iff` shows for which inputs `Decrypt` returns false where it
should.
-/

namespace CxxPandora.Openssl

open Lib

/-- The functions of OpenSSL, with what the two decryption calls return. -/
structure EvpStatus (Key : Type) extends Evp Key where
  /-- `EVP_DecryptUpdate` does not return zero. -/
  decryptUpdateOk : Key → List UInt8 → Bool
  /-- `EVP_DecryptFinal` after `EVP_DecryptUpdate` of these bytes does not return zero. -/
  decryptFinalOk : Key → List UInt8 → Bool

/-- The bounds that are documented. -/
structure EvpStatus.Bounded {Key : Type} (evp : EvpStatus Key) : Prop where
  /-- `EVP_DecodeBlock` writes three bytes for every four characters. -/
  length_decodeBlock : ∀ chars out, evp.decodeBlock chars = some out →
    out.length ≤ 3 * (chars.length / 4)
  /-- The two decryption calls write at most a block more than they read. -/
  length_plainText : ∀ key bytes, (evp.plainText key bytes).length ≤ bytes.length + blockSize

/-- A run of `Decrypt`. -/
structure DecryptRun where
  /-- What it returns. -/
  returned : Bool
  /-- `content` after it. -/
  content : List UInt8
  /-- The lengths that it computes. -/
  lengths : List ℤ
  /-- `EVP_DecryptUpdate` or `EVP_DecryptFinal` returned zero. -/
  failed : Bool

section Model

variable {Key : Type} (evp : EvpStatus Key)

/-- Both decryption calls succeed. -/
def EvpStatus.decrypts (key : Key) (bytes : List UInt8) : Bool :=
  evp.decryptUpdateOk key bytes && evp.decryptFinalOk key bytes

/-- The key that `Decrypt` derives: `memcpy` copies bytes 8 to 15 of the C string of `bd`. -/
def decryptKey (passphrase bd : List UInt8) : Key :=
  evp.bytesToKey (((bd ++ [0]).drop 8).take 8) passphrase

/-- `Decrypt` after `DecodeString`, with the lengths that are computed before. -/
def decryptDecoded (lengths : List ℤ) (passphrase content bd : List UInt8) : Option DecryptRun :=
  if bd.length + 1 < 16 then none
  else
    let key := decryptKey evp passphrase bd
    if evp.decryptInit key = false then some ⟨false, content, lengths, false⟩
    else
      let inl := toInt (sizeSub bd.length 16)
      (checkInt (inl + blockSize)).bind fun size =>
        let bytes := (bd.drop 16).take inl.toNat
        let out := evp.plainText key bytes
        if size < out.length then none
        else some ⟨true, out, lengths ++ [inl, size, out.length], !evp.decrypts key bytes⟩

/-- The lengths that `DecodeString` computes, and that of the passphrase. -/
def lengthsBefore (cipher_content passphrase : List UInt8) : List ℤ :=
  [toInt cipher_content.length, toInt cipher_content.length * 3 / 4, toInt passphrase.length]

/-- `Decrypt`, with the `content` that it is given. -/
def decryptRun (cipher_content passphrase content : List UInt8) : Option DecryptRun :=
  if evp.getCipherbyname = false ∨ evp.decryptCtxNew = false then some ⟨false, content, [], false⟩
  else
    (decodeString evp.toEvp cipher_content).bind
      (decryptDecoded evp (lengthsBefore cipher_content passphrase) passphrase content)

/-- The text is the base64 encoding of 16 bytes or more that begin with the header. -/
def WellFormed (cipher_content : List UInt8) : Prop :=
  ∃ bytes, Rfc4648.encode bytes = cipher_content ∧ 16 ≤ bytes.length ∧ magic <+: bytes

/-- `Decrypt` is defined and computes no negative length; and when the text is not well formed, or
one of the decryption calls fails, it returns false and leaves `content` as it is. -/
def FailsSafely (cipher_content passphrase : List UInt8) : Prop :=
  ∀ content, ∃ run, decryptRun evp cipher_content passphrase content = some run ∧
    (∀ n ∈ run.lengths, 0 ≤ n) ∧
      (¬ WellFormed cipher_content ∨ run.failed = true →
        run.returned = false ∧ run.content = content)

/-- The decoded bytes before the first NUL, for a text and a passphrase whose lengths are not
negative as an `int`, and such that the size of the buffer does not overflow. -/
def Decodes (cipher_content passphrase bd : List UInt8) : Prop :=
  0 ≤ toInt passphrase.length ∧ 0 ≤ toInt cipher_content.length ∧
    toInt cipher_content.length * 3 ≤ intMax ∧
      ∃ out, evp.decodeBlock (cipher_content.take (toInt cipher_content.length).toNat) = some out ∧
        0 ∈ out ∧ cstr out = bd

/-- The calls before the decoding fail; or the text is decoded, 15 bytes or more come before the
first NUL, and `EVP_DecryptInit` fails; or 16 or more do, the text is well formed, and both
decryption calls succeed. -/
def FailsEarly (cipher_content passphrase : List UInt8) : Prop :=
  evp.getCipherbyname = false ∨ evp.decryptCtxNew = false ∨
    ∃ bd, Decodes evp cipher_content passphrase bd ∧
      (15 ≤ bd.length ∧ evp.decryptInit (decryptKey evp passphrase bd) = false ∨
        16 ≤ bd.length ∧ WellFormed cipher_content ∧
          evp.decrypts (decryptKey evp passphrase bd) (bd.drop 16) = true)

/-! ## The run -/

/-- The run is that of `Decrypt`. -/
theorem decryptRun_eq (cipher_content passphrase content : List UInt8) :
    (decryptRun evp cipher_content passphrase content).map
        (fun run => if run.returned then some run.content else none) =
      Decrypt evp.toEvp cipher_content passphrase := by
  unfold decryptRun Decrypt
  split_ifs with hcalls
  · rfl
  · rw [Option.map_bind]
    refine congrArg _ (funext fun bd => ?_)
    rw [Function.comp_apply, decryptDecoded]
    by_cases hshort : bd.length + 1 < 16
    · rw [if_pos hshort, if_pos hshort]
      rfl
    · rw [if_neg hshort, if_neg hshort]
      by_cases hinit : evp.decryptInit (decryptKey evp passphrase bd) = false
      · exact (congrArg _ (if_pos hinit)).trans (if_pos hinit).symm
      · refine (congrArg _ (if_neg hinit)).trans (Eq.trans ?_ (if_neg hinit).symm)
        rw [Option.map_bind]
        refine congrArg _ (funext fun size => ?_)
        rw [Function.comp_apply, apply_ite (Option.map _)]
        rfl

/-! ## The decoded string -/

/-- `DecodeString` returns bytes that are not empty exactly when they are those before the first
NUL of what is decoded. -/
theorem decodeString_iff (h : evp.Bounded) {cipher_content bd : List UInt8} (hne : bd ≠ []) :
    decodeString evp.toEvp cipher_content = some bd ↔
      0 ≤ toInt cipher_content.length ∧ toInt cipher_content.length * 3 ≤ intMax ∧
        ∃ out,
          evp.decodeBlock (cipher_content.take (toInt cipher_content.length).toNat) = some out ∧
          0 ∈ out ∧ cstr out = bd := by
  unfold decodeString
  dsimp only
  by_cases hneg : toInt cipher_content.length < 0
  · rw [if_pos hneg]
    refine iff_of_false nofun fun hall => ?_
    omega
  · rw [if_neg hneg]
    rcases lt_or_ge intMax (toInt cipher_content.length * 3) with hover | hfits
    · rw [checkInt_eq_none (by unfold intMax at hover; omega), Option.bind_none]
      refine iff_of_false nofun fun hall => ?_
      omega
    · rw [checkInt_of_nonneg (by omega) hfits, Option.bind_some]
      cases hblock : evp.decodeBlock (cipher_content.take (toInt cipher_content.length).toNat) with
      | none => simp [hne.symm]
      | some out =>
        have hout := h.length_decodeBlock _ _ hblock
        have htake := List.length_take_le (toInt cipher_content.length).toNat cipher_content
        dsimp only
        rw [if_neg (by omega)]
        by_cases hnil : out = []
        · rw [if_pos hnil, hnil]
          simp [hne.symm]
        · rw [if_neg hnil, readCStr]
          split_ifs with hzero
          · simp [hzero, hfits, not_lt.mp hneg]
          · simp [hzero]

/-- The decoded string is shorter than the buffer. -/
theorem length_le_of_decodes (h : evp.Bounded) {cipher_content passphrase bd : List UInt8}
    (hbd : Decodes evp cipher_content passphrase bd) : (bd.length : ℤ) ≤ intMax := by
  obtain ⟨-, hneg, hfits, out, hblock, hzero, rfl⟩ := hbd
  have hout := h.length_decodeBlock _ _ hblock
  have htake := List.length_take_le (toInt cipher_content.length).toNat cipher_content
  have hlt := length_cstr_lt hzero
  omega

/-- A string of 15 bytes has no last byte of the header: the length of what follows is negative. -/
theorem toInt_sizeSub_fifteen : toInt (sizeSub 15 16) = -1 := by decide

/-- The length of what follows the header. -/
theorem toInt_sizeSub_of_le {n : ℕ} (h16 : 16 ≤ n) (hle : (n : ℤ) ≤ intMax) :
    toInt (sizeSub n 16) = (n : ℤ) - 16 := by
  unfold intMax at hle
  rw [sizeSub_eq h16 (by omega)]
  exact (toInt_of_nonneg (by omega) (by unfold intMax; omega)).trans (by omega)

/-- A run that ends has the header, but for its last byte at most. -/
theorem le_length_of_decryptDecoded {lengths : List ℤ} {passphrase content bd : List UInt8}
    {run : DecryptRun} (hrun : decryptDecoded evp lengths passphrase content bd = some run) :
    15 ≤ bd.length := by
  by_contra hshort
  rw [decryptDecoded, if_pos (by omega)] at hrun
  exact nomatch hrun

/-- A run that ends has computed the lengths from before. -/
theorem mem_lengths {lengths : List ℤ} {passphrase content bd : List UInt8} {run : DecryptRun}
    (hrun : decryptDecoded evp lengths passphrase content bd = some run) {n : ℤ}
    (hn : n ∈ lengths) : n ∈ run.lengths := by
  have h15 := le_length_of_decryptDecoded evp hrun
  rw [decryptDecoded, if_neg (by omega)] at hrun
  dsimp only at hrun
  by_cases hinit : evp.decryptInit (decryptKey evp passphrase bd) = false
  · rw [if_pos hinit] at hrun
    obtain rfl := Option.some.inj hrun
    exact hn
  · rw [if_neg hinit] at hrun
    obtain ⟨size, -, hrun⟩ := Option.bind_eq_some_iff.mp hrun
    split_ifs at hrun
    obtain rfl := Option.some.inj hrun
    exact List.mem_append_left _ hn

/-- When the last byte of the header is missing, and the calls before the decryption succeed, the
length of what follows is negative. -/
theorem neg_mem_lengths {lengths : List ℤ} {passphrase content bd : List UInt8} {run : DecryptRun}
    (h15 : bd.length = 15) (hinit : ¬ evp.decryptInit (decryptKey evp passphrase bd) = false)
    (hrun : decryptDecoded evp lengths passphrase content bd = some run) : -1 ∈ run.lengths := by
  rw [decryptDecoded, if_neg (by omega)] at hrun
  dsimp only at hrun
  rw [if_neg hinit, h15, toInt_sizeSub_fifteen] at hrun
  obtain ⟨size, -, hrun⟩ := Option.bind_eq_some_iff.mp hrun
  split_ifs at hrun
  obtain rfl := Option.some.inj hrun
  simp

/-- The run when the string has all of the header, and the calls before the decryption succeed. -/
theorem decryptDecoded_of_header (h : evp.Bounded) {passphrase bd : List UInt8}
    (h16 : 16 ≤ bd.length) (hle : (bd.length : ℤ) ≤ intMax) {key : Key}
    (hkey : decryptKey evp passphrase bd = key) (hinit : ¬ evp.decryptInit key = false)
    (lengths : List ℤ) (content : List UInt8) :
    decryptDecoded evp lengths passphrase content bd =
      some ⟨true, evp.plainText key (bd.drop 16),
        lengths ++ [(bd.length : ℤ) - 16, bd.length, (evp.plainText key (bd.drop 16)).length],
        !evp.decrypts key (bd.drop 16)⟩ := by
  have hdrop : (bd.drop 16).length = bd.length - 16 := List.length_drop
  have htake : (bd.drop 16).take ((bd.length : ℤ) - 16).toNat = bd.drop 16 :=
    List.take_of_length_le (by omega)
  have hsum : (bd.length : ℤ) - 16 + blockSize = bd.length := by
    unfold blockSize
    omega
  have hplain := h.length_plainText key (bd.drop 16)
  unfold blockSize at hplain
  rw [decryptDecoded, if_neg (by omega), hkey]
  dsimp only
  rw [if_neg hinit, toInt_sizeSub_of_le h16 hle, hsum, checkInt_of_nonneg (by omega) hle,
    Option.bind_some, htake, if_neg (by omega)]

/-! ## The result -/

/-- When the calls before the decoding succeed, `Decrypt` fails safely only for a string that is
decoded without an error, and where it does not decrypt what it should not. -/
theorem failsEarly_of_failsSafely (h : evp.Bounded) {cipher_content passphrase : List UInt8}
    (hsafe : FailsSafely evp cipher_content passphrase) :
    FailsEarly evp cipher_content passphrase := by
  by_cases hcalls : evp.getCipherbyname = false ∨ evp.decryptCtxNew = false
  · exact or_assoc.mp (Or.inl hcalls)
  · obtain ⟨run, hrun, hlengths, hfail⟩ := hsafe []
    rw [decryptRun, if_neg hcalls] at hrun
    obtain ⟨bd, hbd, hrun⟩ := Option.bind_eq_some_iff.mp hrun
    have h15 := le_length_of_decryptDecoded evp hrun
    have hdecodes := (decodeString_iff evp h (List.ne_nil_of_length_pos (by omega))).mp hbd
    have hpass := mem_lengths evp hrun (n := toInt passphrase.length) (by simp [lengthsBefore])
    have hdec : Decodes evp cipher_content passphrase bd := ⟨hlengths _ hpass, hdecodes⟩
    refine Or.inr (Or.inr ⟨bd, hdec, ?_⟩)
    by_cases hinit : evp.decryptInit (decryptKey evp passphrase bd) = false
    · exact Or.inl ⟨h15, hinit⟩
    · have h16 : 16 ≤ bd.length := by
        by_contra hlt
        have hneg := hlengths _ (neg_mem_lengths evp (by omega) hinit hrun)
        omega
      rw [decryptDecoded_of_header evp h h16 (length_le_of_decodes evp h hdec) rfl hinit] at hrun
      obtain rfl := Option.some.inj hrun
      -- The run returns true.
      have hno := mt hfail fun hreturned => Bool.noConfusion hreturned.1
      rw [not_or, not_not] at hno
      exact Or.inr ⟨h16, hno.1, by simpa using hno.2⟩

/-- `Decrypt` fails safely when it fails before the decryption, with a string that is decoded
without an error, or when the text is well formed and the decryption succeeds. -/
theorem failsSafely_of_failsEarly (h : evp.Bounded) {cipher_content passphrase : List UInt8}
    (hearly : FailsEarly evp cipher_content passphrase) :
    FailsSafely evp cipher_content passphrase := by
  intro content
  rw [FailsEarly, ← or_assoc] at hearly
  by_cases hcalls : evp.getCipherbyname = false ∨ evp.decryptCtxNew = false
  · exact ⟨⟨false, content, [], false⟩, if_pos hcalls, by simp⟩
  · obtain ⟨bd, hdec, hcases⟩ := hearly.resolve_left hcalls
    have hle := length_le_of_decodes evp h hdec
    obtain ⟨hpass, hdecodes⟩ := hdec
    have hlengths : ∀ n ∈ lengthsBefore cipher_content passphrase, 0 ≤ n := by
      have hlen := hdecodes.1
      intro n hn
      simp only [lengthsBefore, List.mem_cons, List.not_mem_nil, or_false] at hn
      omega
    have hne : bd ≠ [] := List.ne_nil_of_length_pos (by omega)
    have hbd := (decodeString_iff evp h hne).mpr hdecodes
    rw [decryptRun, if_neg hcalls, hbd, Option.bind_some]
    by_cases hinit : evp.decryptInit (decryptKey evp passphrase bd) = false
    · refine ⟨⟨false, content, lengthsBefore cipher_content passphrase, false⟩, ?_, hlengths,
        fun _ => ⟨rfl, rfl⟩⟩
      rw [decryptDecoded, if_neg (by omega)]
      exact if_pos hinit
    · obtain ⟨h16, hwell, hok⟩ := hcases.resolve_left fun hleft => hinit hleft.2
      refine ⟨_, decryptDecoded_of_header evp h h16 hle rfl hinit _ content, ?_, ?_⟩
      · intro n hn
        rcases List.mem_append.mp hn with hn | hn
        · exact hlengths n hn
        · simp only [List.mem_cons, List.not_mem_nil, or_false] at hn
          omega
      · rintro (hbad | hfailed)
        · exact absurd hwell hbad
        · simp [hok] at hfailed

/-- `Decrypt` fails safely exactly when it fails before the decryption, with a string that is
decoded without an error, or when the text is well formed and the decryption succeeds. -/
theorem failsSafely_iff (h : evp.Bounded) (cipher_content passphrase : List UInt8) :
    FailsSafely evp cipher_content passphrase ↔ FailsEarly evp cipher_content passphrase :=
  ⟨failsEarly_of_failsSafely evp h, failsSafely_of_failsEarly evp h⟩

end Model

/-! ## Two texts -/

/-- The bytes of the text that `main` decrypts. -/
def mainBytes : List UInt8 :=
  magic ++ mainSalt ++ [23, 38, 237, 137, 10, 231, 234, 246, 104, 18, 52, 8, 24, 161, 211, 228]

/-- A header, with no ciphertext. -/
def headerBytes : List UInt8 := magic ++ [1, 2, 3, 4, 5, 6, 7, 8]

/-- The text that `main` decrypts. -/
def mainText : List UInt8 := Rfc4648.encode mainBytes

/-- `"U2FsdGVkX18BAgMEBQYHCA=="`. -/
def headerText : List UInt8 := Rfc4648.encode headerBytes

/-- OpenSSL on these texts. The padding is decoded as zeros. `EVP_DecryptFinal` fails when there is
no block. -/
def mainEvpStatus : EvpStatus (List UInt8) where
  toEvp :=
    { mainEvp with
      decodeBlock := fun chars =>
        if chars = mainText then some (mainBytes ++ [0])
        else if chars = headerText then some (headerBytes ++ [0, 0])
        else none }
  decryptUpdateOk _ _ := true
  decryptFinalOk key bytes := decide (dingjiaCipherText key = some bytes)

/-- The texts that are decoded. -/
theorem decodeBlock_mainEvpStatus (chars : List UInt8) : mainEvpStatus.decodeBlock chars =
    if chars = mainText then some (mainBytes ++ [0])
    else if chars = headerText then some (headerBytes ++ [0, 0])
    else none := rfl

/-- The bounds hold for these functions. -/
theorem bounded_mainEvpStatus : mainEvpStatus.Bounded where
  length_decodeBlock := by
    intro chars out h
    rw [decodeBlock_mainEvpStatus] at h
    split_ifs at h with hmain hheader
    · obtain rfl := Option.some.inj h
      rw [hmain]
      decide
    · obtain rfl := Option.some.inj h
      rw [hheader]
      decide
  length_plainText := by
    intro key bytes
    have hplain : mainEvpStatus.plainText key bytes =
        if dingjiaCipherText key = some bytes then dingjia else [] := rfl
    have hlen : dingjia.length = 7 := rfl
    rw [hplain]
    unfold blockSize
    split_ifs
    · omega
    · exact Nat.zero_le _

/-- `Decrypt` of the text of `main` with its passphrase. -/
theorem failsSafely_iff_mainText : mainEvpStatus.Bounded ∧
    FailsSafely mainEvpStatus mainText mainPassphrase := by
  refine ⟨bounded_mainEvpStatus,
    (failsSafely_iff mainEvpStatus bounded_mainEvpStatus mainText mainPassphrase).mpr ?_⟩
  have hlen : (mainText.length : ℤ) = 44 := by decide
  have hpass : (mainPassphrase.length : ℤ) = 18 := by decide
  have hdecodes : Decodes mainEvpStatus mainText mainPassphrase mainBytes := by
    rw [Decodes, hlen, hpass]
    refine ⟨by decide, by decide, by decide, mainBytes ++ [0], ?_, by decide, by decide⟩
    rw [List.take_of_length_le (by decide), decodeBlock_mainEvpStatus, if_pos rfl]
  have hwell : WellFormed mainText := ⟨mainBytes, rfl, by decide, by decide⟩
  exact Or.inr (Or.inr ⟨mainBytes, hdecodes, Or.inr ⟨by decide, hwell, by decide⟩⟩)

/-- With the other text, `EVP_DecryptFinal` fails, and `Decrypt` returns true with no content. -/
theorem not_failsSafely_headerText : mainEvpStatus.Bounded ∧
    ¬ FailsSafely mainEvpStatus headerText mainPassphrase := by
  refine ⟨bounded_mainEvpStatus, fun hsafe => ?_⟩
  rcases failsEarly_of_failsSafely mainEvpStatus bounded_mainEvpStatus hsafe with
    hcipher | hctx | ⟨bd, ⟨-, -, -, out, hblock, -, rfl⟩, ⟨-, hinit⟩ | ⟨-, -, hok⟩⟩
  · exact Bool.noConfusion hcipher
  · exact Bool.noConfusion hctx
  · exact Bool.noConfusion hinit
  · have hne : headerText ≠ mainText := fun heq => absurd (congrArg List.length heq) (by decide)
    rw [List.take_of_length_le (by decide), decodeBlock_mainEvpStatus, if_neg hne, if_pos rfl]
      at hblock
    obtain rfl := Option.some.inj hblock
    have hcstr : cstr (headerBytes ++ [0, 0]) = headerBytes := by decide
    rw [hcstr] at hok
    have hfinal : dingjiaCipherText (decryptKey mainEvpStatus mainPassphrase headerBytes) =
        some (headerBytes.drop 16) := by
      simpa [EvpStatus.decrypts, mainEvpStatus] using hok
    exact absurd (length_dingjiaCipherText hfinal) (by decide)

end CxxPandora.Openssl
