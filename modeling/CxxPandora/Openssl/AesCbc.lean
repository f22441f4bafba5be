import CxxPandora.Lib.Chaining
import CxxPandora.Lib.Words
import Mathlib.Logic.Equiv.Basic

/-!
# AES in CBC mode

`aes_256_cbc_encode` and `aes_256_cbc_decode` of `demos/openssl/main.cpp`, over the functions of
OpenSSL that they call (`Aes`) and what is documented of these (`Aes.Documented`). Both go through
their input block by block, with the initialization vector that each call leaves for the next. The
data are completed to whole blocks with zero bytes, which are not removed: `decode_encode` says that
they are what the round trip adds, for the lengths that an `unsigned int` holds.
-/

namespace CxxPandora.Openssl

open Lib

/-- 16 bytes. -/
@[ext] structure Block where
  bytes : List UInt8
  length_bytes : bytes.length = 16
deriving DecidableEq

/-- The bytes as a block, if there are as many. -/
def Block.ofBytes (bytes : List UInt8) : Option Block :=
  if h : bytes.length = 16 then some ⟨bytes, h⟩ else none

/-- The functions of OpenSSL. -/
structure Aes (EncryptKey DecryptKey : Type) where
  /-- `AES_set_encrypt_key`, unless it returns a negative value. -/
  setEncryptKey : List UInt8 → ℤ → Option EncryptKey
  /-- `AES_set_decrypt_key`, unless it returns a negative value. -/
  setDecryptKey : List UInt8 → ℤ → Option DecryptKey
  /-- `AES_cbc_encrypt` of a block with `AES_ENCRYPT`: what it writes, and the vector that it
  leaves. -/
  cbcEncrypt : EncryptKey → Block → Block → Block × Block
  /-- `AES_cbc_encrypt` of a block with `AES_DECRYPT`. -/
  cbcDecrypt : DecryptKey → Block → Block → Block × Block

/-- What is documented. -/
structure Aes.Documented {EncryptKey DecryptKey : Type} (aes : Aes EncryptKey DecryptKey) :
    Prop where
  /-- A key has 128, 192 or 256 bits. -/
  setEncryptKey_isSome : ∀ userKey : List UInt8, userKey.length = 16 ∨ userKey.length = 24 ∨
    userKey.length = 32 → ∃ key, aes.setEncryptKey userKey (userKey.length * 8) = some key
  /-- A key has 128, 192 or 256 bits. -/
  setDecryptKey_isSome : ∀ userKey : List UInt8, userKey.length = 16 ∨ userKey.length = 24 ∨
    userKey.length = 32 → ∃ key, aes.setDecryptKey userKey (userKey.length * 8) = some key
  /-- Encryption leaves the ciphertext block as the vector. -/
  snd_cbcEncrypt : ∀ key ivec block, (aes.cbcEncrypt key ivec block).2 =
    (aes.cbcEncrypt key ivec block).1
  /-- Decryption leaves the ciphertext block as the vector. -/
  snd_cbcDecrypt : ∀ key ivec block, (aes.cbcDecrypt key ivec block).2 = block
  /-- Decryption inverts encryption with the same vector. -/
  cbcDecrypt_cbcEncrypt : ∀ userKey bits key key',
    aes.setEncryptKey userKey bits = some key → aes.setDecryptKey userKey bits = some key' →
      ∀ ivec block, (aes.cbcDecrypt key' ivec (aes.cbcEncrypt key ivec block).1).1 = block

/-! ## The model -/

/-- The initialization vector: the character `0`. -/
def iv : Block := ⟨List.replicate 16 48, List.length_replicate⟩

/-- The bytes that are read from `str16`, the part of a string from `i * AES_BLOCK_SIZE` on, which
is computed as an `unsigned int`; `none` when it is beyond the end, or shorter than what is read. -/
def blockAt (s : List UInt8) (i : ℕ) : Option Block :=
  let pos := 16 * i % 2^32
  if s.length < pos then none else Block.ofBytes (((s.drop pos).take 16 ++ [0]).take 16)

/-- The loop over the blocks, with what a call of `AES_cbc_encrypt` does: what is appended to
`strRet`. -/
def cbcLoop (call : Block → Block → Block × Block) (s : List UInt8) (n : ℕ) : Option (List UInt8) :=
  ((List.range n).foldlM (fun p i => (blockAt s i).map fun block =>
    ((call p.1 block).2, p.2 ++ (call p.1 block).1.bytes)) (iv, [])).map Prod.snd

/-- `padding`: the number of zero bytes that complete the last block. -/
def padding (length : ℕ) : ℕ := if length % 16 > 0 then 16 - length % 16 else 0

section Model

variable {EncryptKey DecryptKey : Type} (aes : Aes EncryptKey DecryptKey)

/-- `aes_256_cbc_encode`. The length is an `unsigned int`. -/
def aes256CbcEncode (password data : List UInt8) : Option (List UInt8) :=
  match aes.setEncryptKey password (toInt (password.length * 8)) with
  | none => some []
  | some key =>
    let data_bak := data ++ List.replicate (padding data.length) 0
    let data_length := (data.length % 2^32 + padding data.length) % 2^32
    cbcLoop (aes.cbcEncrypt key) data_bak (data_length / 16)

/-- `aes_256_cbc_decode`. The counter is an `unsigned int`, and the loop does not end when it cannot
reach the number of blocks. -/
def aes256CbcDecode (password strData : List UInt8) : Option (List UInt8) :=
  match aes.setDecryptKey password (toInt (password.length * 8)) with
  | none => some []
  | some key =>
    if 2^32 ≤ strData.length / 16 then none
    else cbcLoop (aes.cbcDecrypt key) strData (strData.length / 16)

/-- What is decoded of what is encoded is the data. -/
def RoundTripsCbc (password data : List UInt8) : Prop :=
  ∃ strData, aes256CbcEncode aes password data = some strData ∧
    aes256CbcDecode aes password strData = some data

end Model

/-! ## The loop -/

/-- Blocks as a string. -/
def joined (blocks : List Block) : List UInt8 := blocks.flatMap Block.bytes

/-- The length of blocks as a string. -/
theorem length_joined (blocks : List Block) : (joined blocks).length = 16 * blocks.length :=
  length_flatMap_eq Block.length_bytes blocks

/-- A string of whole blocks. -/
theorem exists_joined_eq {k : ℕ} {s : List UInt8} (hs : s.length = 16 * k) :
    ∃ blocks, blocks.length = k ∧ joined blocks = s :=
  exists_flatMap_eq (fun l hl => ⟨⟨l, hl⟩, rfl⟩) k hs

/-- Each block is found in the string, when the product does not wrap. -/
theorem blockAt_joined {blocks : List Block} (hlen : 16 * blocks.length ≤ 2^32) {i : ℕ}
    (hi : i < blocks.length) : blockAt (joined blocks) i = some blocks[i] := by
  have hpos : 16 * i % 2^32 = 16 * i := Nat.mod_eq_of_lt (by omega)
  have hbytes := take_drop_flatMap Block.length_bytes hi
  have htake : (blocks[i].bytes ++ [0]).take 16 = blocks[i].bytes :=
    List.take_left' blocks[i].length_bytes
  have hjoined := length_joined blocks
  rw [blockAt, hpos, if_neg (by omega), joined, hbytes, htake, Block.ofBytes,
    dif_pos blocks[i].length_bytes]

/-- The loop over a string of blocks chains the calls. -/
theorem cbcLoop_eq (call : Block → Block → Block × Block) {blocks : List Block}
    (hlen : 16 * blocks.length ≤ 2^32) :
    cbcLoop call (joined blocks) blocks.length = some (joined (transduce call iv blocks)) := by
  have hget : ∀ i (hi : i < blocks.length), blockAt (joined blocks) i = some blocks[i] :=
    fun i hi => blockAt_joined hlen hi
  have hloop := foldlM_range hget
    (fun p block => ((call p.1 block).2, p.2 ++ (call p.1 block).1.bytes)) (iv, [])
  rw [cbcLoop, hloop, Option.map_some, foldl_eq_transduce call Block.bytes]
  rfl

/-! ## The round trip -/

/-- The padding completes the last block. -/
theorem length_append_padding (data : List UInt8) :
    (data ++ List.replicate (padding data.length) 0).length = 16 * ((data.length + 15) / 16) := by
  rw [List.length_append, List.length_replicate, padding]
  split_ifs <;> omega

/-- The number of zero bytes. -/
theorem padding_eq (n : ℕ) : padding n = (16 - n % 16) % 16 := by
  unfold padding
  split_ifs <;> omega

/-- The keys are set when the password has 16, 24 or 32 bytes. -/
theorem exists_keys {EncryptKey DecryptKey : Type} {aes : Aes EncryptKey DecryptKey}
    (h : aes.Documented) {password : List UInt8}
    (hpassword : password.length = 16 ∨ password.length = 24 ∨ password.length = 32) :
    ∃ key key', aes.setEncryptKey password (toInt (password.length * 8)) = some key ∧
      aes.setDecryptKey password (toInt (password.length * 8)) = some key' := by
  have hbits : toInt (password.length * 8) = password.length * 8 :=
    toInt_of_nonneg (by omega) (by unfold intMax; omega)
  rw [hbits]
  obtain ⟨key, hkey⟩ := h.setEncryptKey_isSome password hpassword
  obtain ⟨key', hkey'⟩ := h.setDecryptKey_isSome password hpassword
  exact ⟨key, key', hkey, hkey'⟩

/-- The call that decrypts inverts the one that encrypts, and leaves the same vector. -/
theorem cbcDecrypt_cbcEncrypt_eq {EncryptKey DecryptKey : Type} {aes : Aes EncryptKey DecryptKey}
    (h : aes.Documented) {password : List UInt8} {bits : ℤ} {key : EncryptKey} {key' : DecryptKey}
    (hkey : aes.setEncryptKey password bits = some key)
    (hkey' : aes.setDecryptKey password bits = some key') (ivec block : Block) :
    aes.cbcDecrypt key' ivec (aes.cbcEncrypt key ivec block).1 =
      (block, (aes.cbcEncrypt key ivec block).2) := by
  refine Prod.ext (h.cbcDecrypt_cbcEncrypt password bits key key' hkey hkey' ivec block) ?_
  rw [h.snd_cbcDecrypt, h.snd_cbcEncrypt]

/-- Encoding and then decoding adds the padding to the data. -/
theorem exists_encode_decode {EncryptKey DecryptKey : Type} {aes : Aes EncryptKey DecryptKey}
    (h : aes.Documented) {password : List UInt8}
    (hpassword : password.length = 16 ∨ password.length = 24 ∨ password.length = 32)
    {data : List UInt8} (hdata : data.length ≤ 2^32 - 16) :
    ∃ strData, aes256CbcEncode aes password data = some strData ∧
      aes256CbcDecode aes password strData =
        some (data ++ List.replicate (padding data.length) 0) := by
  obtain ⟨key, key', hkey, hkey'⟩ := exists_keys h hpassword
  obtain ⟨blocks, hcount, hblocks⟩ := exists_joined_eq (length_append_padding data)
  have hsum := length_joined blocks
  have hlength : (data.length % 2^32 + padding data.length) % 2^32 / 16 = blocks.length := by
    rw [hcount, padding]
    split_ifs <;> omega
  -- The first induction over the blocks is in the loop, the second in the inverse.
  have hencode : aes256CbcEncode aes password data =
      some (joined (transduce (aes.cbcEncrypt key) iv blocks)) := by
    rw [aes256CbcEncode, hkey]
    dsimp only
    rw [hlength, ← hblocks, cbcLoop_eq _ (by omega)]
  refine ⟨_, hencode, ?_⟩
  have hcipher := length_joined (transduce (aes.cbcEncrypt key) iv blocks)
  have htransduce := length_transduce (aes.cbcEncrypt key) iv blocks
  have hdiv : (joined (transduce (aes.cbcEncrypt key) iv blocks)).length / 16 =
      (transduce (aes.cbcEncrypt key) iv blocks).length := by
    omega
  rw [aes256CbcDecode, hkey']
  dsimp only
  rw [hdiv, if_neg (by omega), cbcLoop_eq _ (by omega),
    transduce_transduce (cbcDecrypt_cbcEncrypt_eq h hkey hkey'), hblocks]

/-- For a password of 16, 24 or 32 bytes, what is decoded of what is encoded is the data with zero
bytes to the end of the last block. -/
theorem decode_encode {EncryptKey DecryptKey : Type} {aes : Aes EncryptKey DecryptKey}
    (h : aes.Documented) {password : List UInt8}
    (hpassword : password.length = 16 ∨ password.length = 24 ∨ password.length = 32)
    {data : List UInt8} (hdata : data.length ≤ 2^32 - 16) :
    ∃ strData, aes256CbcEncode aes password data = some strData ∧
      aes256CbcDecode aes password strData =
        some (data ++ List.replicate ((16 - data.length % 16) % 16) 0) := by
  rw [← padding_eq]
  exact exists_encode_decode h hpassword hdata

/-! ## A block cipher -/

/-- The sum of two blocks, bit by bit. -/
def Block.xor (a b : Block) : Block :=
  ⟨List.zipWith (· ^^^ ·) a.bytes b.bytes, by
    rw [List.length_zipWith, a.length_bytes, b.length_bytes, Nat.min_self]⟩

/-- The same block cancels. -/
theorem Block.xor_xor (a b : Block) : (a.xor b).xor b = a := by
  have hlist : ∀ l l' : List UInt8, l.length = l'.length →
      List.zipWith (· ^^^ ·) (List.zipWith (· ^^^ ·) l l') l' = l := by
    intro l l' hlen
    induction l generalizing l' with
    | nil => rfl
    | cons x l ih =>
      cases l' with
      | nil => exact nomatch hlen
      | cons y l' =>
        rw [List.zipWith_cons_cons, List.zipWith_cons_cons, ih l' (Nat.succ.inj hlen),
          UInt8.xor_assoc, UInt8.xor_self, UInt8.xor_zero]
  exact Block.ext (hlist a.bytes b.bytes (a.length_bytes.trans b.length_bytes.symm))

/-- CBC mode with a permutation of the blocks for each key. -/
def cbcAes (cipher : List UInt8 → Equiv.Perm Block) : Aes (List UInt8) (List UInt8) where
  setEncryptKey userKey bits :=
    if bits = 128 ∨ bits = 192 ∨ bits = 256 then some userKey else none
  setDecryptKey userKey bits :=
    if bits = 128 ∨ bits = 192 ∨ bits = 256 then some userKey else none
  cbcEncrypt key ivec block :=
    (cipher key (block.xor ivec), cipher key (block.xor ivec))
  cbcDecrypt key ivec block := (((cipher key).symm block).xor ivec, block)

/-- It is as documented. -/
theorem documented_cbcAes (cipher : List UInt8 → Equiv.Perm Block) :
    (cbcAes cipher).Documented where
  setEncryptKey_isSome userKey hlen := ⟨userKey, if_pos (by omega)⟩
  setDecryptKey_isSome userKey hlen := ⟨userKey, if_pos (by omega)⟩
  snd_cbcEncrypt _ _ _ := rfl
  snd_cbcDecrypt _ _ _ := rfl
  cbcDecrypt_cbcEncrypt := by
    intro userKey bits key key' hkey hkey' ivec block
    obtain rfl := Option.some.inj (hkey.symm.trans hkey')
    show Block.xor ((cipher key).symm (cipher key (block.xor ivec))) ivec = block
    rw [Equiv.symm_apply_apply, Block.xor_xor]

/-- `"S!C@U#T$E%C^H&86"`. -/
def mainKey : List UInt8 := [83, 33, 67, 64, 85, 35, 84, 36, 69, 37, 67, 94, 72, 38, 56, 54]

/-- `"a"` with the padding, added to the initialization vector. -/
def plainBlock : Block := ⟨[81, 48, 48, 48, 48, 48, 48, 48, 48, 48, 48, 48, 48, 48, 48, 48], rfl⟩

/-- What AES makes of it with the key of `main`. -/
def cipherBlock : Block :=
  ⟨[14, 74, 4, 208, 5, 166, 137, 102, 75, 252, 80, 210, 161, 12, 165, 102], rfl⟩

/-- OpenSSL on this block. -/
def mainAes : Aes (List UInt8) (List UInt8) :=
  cbcAes fun _ => Equiv.swap plainBlock cipherBlock

/-- The round trip of `"a"` with the key of `main`. -/
theorem decode_encode_a : mainAes.Documented ∧ mainKey.length = 16 ∧
    ∃ strData, aes256CbcEncode mainAes mainKey [97] = some strData ∧
      aes256CbcDecode mainAes mainKey strData =
        some [97, 0, 0, 0, 0, 0, 0, 0, 0, 0, 0, 0, 0, 0, 0, 0] :=
  ⟨documented_cbcAes _, rfl, decode_encode (documented_cbcAes _) (Or.inl rfl) (by decide)⟩

/-- The data are not what is decoded when their last block is not complete. -/
theorem not_roundTripsCbc_a : mainAes.Documented ∧ mainKey.length = 16 ∧
    ¬ RoundTripsCbc mainAes mainKey [97] := by
  refine ⟨documented_cbcAes _, rfl, ?_⟩
  rintro ⟨strData, hencode, hdecode⟩
  obtain ⟨strData', hencode', hdecode'⟩ : ∃ strData,
      aes256CbcEncode mainAes mainKey [97] = some strData ∧
        aes256CbcDecode mainAes mainKey strData = some ([97] ++ List.replicate (padding 1) 0) :=
    exists_encode_decode (documented_cbcAes _) (Or.inl rfl) (by decide)
  obtain rfl := Option.some.inj (hencode.symm.trans hencode')
  exact absurd (Option.some.inj (hdecode.symm.trans hdecode')) (by decide)

end CxxPandora.Openssl
