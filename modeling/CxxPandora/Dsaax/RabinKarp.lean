import CxxPandora.Lib.Bytes
import CxxPandora.Lib.RollingHash
import CxxPandora.Lib.Words
import Mathlib.Data.Int.ModEq

/-!
# The Rabin-Karp search

`RabinKarp` of `dsaax/rabin_karp/rk.cpp`: it slides a window over a text, rolls the window's hash,
and compares the window with the pattern where the hash is the pattern's. The remainder of C has the
sign of the dividend. A rolled hash is made nonnegative, but the pattern's hash, like the first
window's, is not: with a negative hash, the pattern is found at index 0 only. `hashOf_nonneg_iff`
says which patterns have none, and `reports_iff` when the search reports exactly the occurrences.
-/

namespace CxxPandora.Dsaax

open Lib

namespace Rk

/-- `BASE`. -/
def BASE : ℤ := 256

/-- `MODULUS`. -/
def MODULUS : ℤ := 101

/-- `strlen`, as the `int` that it is stored in. -/
def strlen (mem : List UInt8) : Option ℤ := (readCStr mem).map fun s => toInt s.length

/-- A byte of an array, at an `int` index. -/
def byteAt (mem : List UInt8) (i : ℤ) : Option UInt8 := if 0 ≤ i then mem[i.toNat]? else none

/-- `memcmp(p, t + i, n) == 0`, undefined when either array is too short. -/
def memcmpEq (p t : List UInt8) (i : ℕ) (n : ℤ) : Option Bool :=
  if 0 ≤ n ∧ n.toNat ≤ p.length ∧ i + n.toNat ≤ t.length then
    some (p.take n.toNat == (t.drop i).take n.toNat)
  else none

/-- The first loop: the power of the base that the first byte of a window has. -/
def power (p_len : ℤ) : Option ℤ :=
  (checkInt (p_len - 1)).bind fun n =>
    (List.range n.toNat).foldlM (fun h _ => (checkInt (h * BASE)).map fun x => x.tmod MODULUS) 1

/-- `(BASE * hash + c) % MODULUS`. -/
def hashByte (hash : ℤ) (c : UInt8) : Option ℤ := do
  let product ← checkInt (BASE * hash)
  let sum ← checkInt (product + charVal c)
  return sum.tmod MODULUS

/-- The second loop: the hashes of the first window and of the pattern. -/
def initialHashes (t p : List UInt8) (p_len : ℤ) : Option (ℤ × ℤ) :=
  (List.range p_len.toNat).foldlM (fun hashes (i : ℕ) => do
    let t_hash ← (byteAt t i).bind (hashByte hashes.1)
    let p_hash ← (byteAt p i).bind (hashByte hashes.2)
    return (t_hash, p_hash)) (0, 0)

/-- The roll: `(BASE * (t_hash - t[i] * h) + t[i + p_len]) % MODULUS`, made nonnegative. -/
def roll (h t_hash : ℤ) (left right : UInt8) : Option ℤ := do
  let contribution ← checkInt (charVal left * h)
  let rest ← checkInt (t_hash - contribution)
  let product ← checkInt (BASE * rest)
  let sum ← checkInt (product + charVal right)
  let t_hash := sum.tmod MODULUS
  return if t_hash < 0 then t_hash + MODULUS else t_hash

/-- `t_hash == p_hash && memcmp(p, t + i, p_len) == 0`. -/
def compare (t p : List UInt8) (p_len p_hash t_hash : ℤ) (i : ℕ) : Option Bool :=
  if t_hash = p_hash then memcmpEq p t i p_len else some false

/-- One pass of the `while` loop, on the hash of the window and the indices printed so far. -/
def pass (t p : List UInt8) (p_len h p_hash : ℤ) (state : ℤ × List ℕ) (i : ℕ) :
    Option (ℤ × List ℕ) := do
  let found ← compare t p p_len p_hash state.1 i
  let left ← byteAt t i
  let right ← (checkInt (i + p_len)).bind (byteAt t)
  let t_hash ← roll h state.1 left right
  return (t_hash, if found then state.2 ++ [i] else state.2)

/-- `RabinKarp`: the printed indices, in order. -/
def RabinKarp (t p : List UInt8) : Option (List ℕ) := do
  let t_len ← strlen t
  let p_len ← strlen p
  let h ← power p_len
  let (t_hash, p_hash) ← initialHashes t p p_len
  let last ← checkInt (t_len - p_len)
  let state ← (List.range (last + 1).toNat).foldlM (pass t p p_len h p_hash) (t_hash, [])
  return state.2

/-- The search reports exactly the occurrences of the pattern in the text; both end at the NUL of
their array. -/
def Reports (t p : List UInt8) : Prop :=
  ∃ found, RabinKarp t p = some found ∧
    ∀ i, i ∈ found ↔
      i + (cstr p).length ≤ (cstr t).length ∧ window (cstr p).length (cstr t) i = cstr p

/-! ## Truncated remainders -/

/-- A truncated remainder is congruent to the dividend, below the modulus, and has its sign. -/
theorem tmod_spec (x : ℤ) :
    x.tmod 101 % 101 = x % 101 ∧ (0 ≤ x → 0 ≤ x.tmod 101 ∧ x.tmod 101 ≤ 100) ∧
      (x ≤ 0 → -100 ≤ x.tmod 101 ∧ x.tmod 101 ≤ 0) := by
  rw [Int.tmod_eq_emod]
  split_ifs with h <;> omega

/-- The hash of some bytes: every remainder keeps the sign of its dividend. -/
def hashOf (str : List UInt8) : ℤ := str.foldl (fun hash c => (256 * hash + charVal c).tmod 101) 0

/-- The hash of one more byte. -/
theorem hashOf_concat (str : List UInt8) (c : UInt8) :
    hashOf (str ++ [c]) = (256 * hashOf str + charVal c).tmod 101 := by
  rw [hashOf, List.foldl_append]
  rfl

/-- A hash is below the modulus, and congruent to the value of the bytes. -/
theorem hashOf_spec (str : List UInt8) :
    -100 ≤ hashOf str ∧ hashOf str ≤ 100 ∧ hashOf str % 101 = charsValue str % 101 := by
  induction str using List.reverseRecOn with
  | nil => exact ⟨by decide, by decide, rfl⟩
  | append_singleton str c ih =>
    obtain ⟨-, -, hmod⟩ := ih
    obtain ⟨hcongr, hpos, hneg⟩ := tmod_spec (256 * hashOf str + charVal c)
    rw [hashOf_concat, charsValue_concat]
    omega

/-- A byte more leaves the hash in range of `int`. -/
theorem hashByte_eq {hash : ℤ} (hlo : -100 ≤ hash) (hhi : hash ≤ 100) (c : UInt8) :
    hashByte hash c = some ((256 * hash + charVal c).tmod 101) := by
  obtain ⟨hclo, hchi⟩ := charVal_bounds c
  have hproduct : checkInt (BASE * hash) = some (256 * hash) :=
    checkInt_eq (by unfold BASE; omega) (by unfold BASE; omega)
  have hsum : checkInt (256 * hash + charVal c) = some (256 * hash + charVal c) :=
    checkInt_eq (by omega) (by omega)
  simp only [hashByte, hproduct, hsum, Option.bind_eq_bind, Option.bind_some]
  rfl

/-- A roll by a power below the modulus is the next hash, made nonnegative. -/
theorem roll_eq {h t_hash : ℤ} (h0 : 0 ≤ h) (h100 : h ≤ 100) (hlo : -100 ≤ t_hash)
    (hhi : t_hash ≤ 100) (left right : UInt8) :
    roll h t_hash left right =
      some ((256 * (t_hash - charVal left * h) + charVal right) % 101) := by
  obtain ⟨hllo, hlhi⟩ := charVal_bounds left
  obtain ⟨hrlo, hrhi⟩ := charVal_bounds right
  have hlow : -12800 ≤ charVal left * h := by nlinarith
  have hhigh : charVal left * h ≤ 12800 := by nlinarith
  generalize hx : charVal left * h = x at hlow hhigh
  have hcontribution : checkInt x = some x :=
    checkInt_eq (by omega) (by omega)
  have hrest : checkInt (t_hash - x) = some (t_hash - x) :=
    checkInt_eq (by omega) (by omega)
  have hproduct : checkInt (BASE * (t_hash - x)) = some (256 * (t_hash - x)) :=
    checkInt_eq (by unfold BASE; omega) (by unfold BASE; omega)
  have hsum : checkInt (256 * (t_hash - x) + charVal right) =
      some (256 * (t_hash - x) + charVal right) :=
    checkInt_eq (by omega) (by omega)
  simp only [roll, hx, hcontribution, hrest, hproduct, hsum, Option.bind_eq_bind, Option.bind_some]
  obtain ⟨hcongr, hpos, hneg⟩ := tmod_spec (256 * (t_hash - x) + charVal right)
  unfold MODULUS
  refine congrArg some ?_
  split_ifs <;> omega

/-! ## The loops -/

/-- The bytes of an array up to its NUL. -/
theorem byteAt_eq {mem : List UInt8} (hmem : 0 ∈ mem) {i : ℕ} (hi : i ≤ (cstr mem).length) :
    byteAt mem i = charAt (cstr mem) i := by
  obtain ⟨rest, hrest⟩ := eq_cstr_append hmem
  rw [byteAt, if_pos (Int.natCast_nonneg i), Int.toNat_natCast, charAt]
  conv_lhs => rw [hrest, List.append_cons]
  rw [List.getElem?_append_left (by rw [List.length_append, List.length_singleton]; omega)]

/-- The comparison of the pattern with a window. -/
theorem memcmpEq_eq {p t : List UInt8} {i : ℕ} (hi : i + (cstr p).length ≤ (cstr t).length) :
    memcmpEq p t i (cstr p).length = some (cstr p == window (cstr p).length (cstr t) i) := by
  have hp := cstr_eq_take p
  have ht := cstr_eq_take t
  have hplen : (cstr p).length ≤ p.length := (List.takeWhile_prefix _).length_le
  have htlen : (cstr t).length ≤ t.length := (List.takeWhile_prefix _).length_le
  have hwindow : (t.drop i).take (cstr p).length = window (cstr p).length (cstr t) i := by
    conv_rhs => rw [window, ht, List.drop_take, List.take_take]
    rw [min_eq_left (by omega)]
  rw [memcmpEq, if_pos ⟨Int.natCast_nonneg _, by rw [Int.toNat_natCast]; omega,
    by rw [Int.toNat_natCast]; omega⟩, Int.toNat_natCast, ← hp, hwindow]

/-- The power of the base that the first byte of a window has. -/
theorem power_eq {n : ℕ} (hn : (n : ℤ) ≤ intMax) : power (n + 1) = some (256^n % 101) := by
  have hcheck : checkInt ((n : ℤ) + 1 - 1) = some (n : ℤ) := by
    rw [add_sub_cancel_right]
    exact checkInt_of_nonneg (by omega) hn
  rw [power, hcheck, Option.bind_some, Int.toNat_natCast]
  clear hn hcheck
  induction n with
  | zero => rfl
  | succ n ih =>
    have hlo : 0 ≤ (256 : ℤ)^n % 101 := Int.emod_nonneg _ (by decide)
    have hhi : (256 : ℤ)^n % 101 < 101 := Int.emod_lt_of_pos _ (by decide)
    rw [List.range_succ, List.foldlM_append, ih, pow_succ, Int.mul_emod]
    generalize (256 : ℤ)^n % 101 = x at hlo hhi ⊢
    have hproduct : checkInt (x * BASE) = some (x * 256) :=
      checkInt_eq (by unfold BASE; omega) (by unfold BASE; omega)
    have hrem : (x * 256).tmod MODULUS = x * (256 % 101) % 101 := by
      unfold MODULUS
      rw [Int.tmod_eq_emod_of_nonneg (by omega)]
      omega
    simp [hproduct, hrem]

/-- The hashes of the first window and of the pattern. -/
theorem initialHashes_eq {t p : List UInt8} (ht : 0 ∈ t) (hp : 0 ∈ p) {n : ℕ}
    (hnt : n ≤ (cstr t).length) (hnp : n ≤ (cstr p).length) :
    initialHashes t p n = some (hashOf ((cstr t).take n), hashOf ((cstr p).take n)) := by
  rw [initialHashes, Int.toNat_natCast]
  induction n with
  | zero => rfl
  | succ n ih =>
    have hbyte : ∀ {mem : List UInt8} (hmem : 0 ∈ mem) (hlt : n < (cstr mem).length),
        (byteAt mem n).bind (hashByte (hashOf ((cstr mem).take n))) =
          some (hashOf ((cstr mem).take (n + 1))) := by
      intro mem hmem hlt
      obtain ⟨hlo, hhi, -⟩ := hashOf_spec ((cstr mem).take n)
      rw [byteAt_eq hmem hlt.le, charAt_of_lt hlt, Option.bind_some, hashByte_eq hlo hhi,
        List.take_succ_eq_append_getElem hlt, hashOf_concat]
    rw [List.range_succ, List.foldlM_append, ih (by omega) (by omega)]
    simp [hbyte ht hnt, hbyte hp hnp]

/-- An index that the search prints: an occurrence, at the first index or of a pattern whose hash is
not negative. -/
def Found (text pattern : List UInt8) (i : ℕ) : Prop :=
  window pattern.length text i = pattern ∧ (i = 0 ∨ 0 ≤ hashOf pattern)

instance (text pattern : List UInt8) (i : ℕ) : Decidable (Found text pattern i) :=
  inferInstanceAs (Decidable (_ ∧ _))

/-- The hash of the window of `w` bytes at the start of a pass: the first one keeps its sign, and
the rolled ones do not. -/
def windowHash (text : List UInt8) (w i : ℕ) : ℤ :=
  if i = 0 then hashOf (window w text 0) else charsValue (window w text i) % 101

/-- The window's hash is below the modulus, and congruent to the window's value. -/
theorem windowHash_spec (text : List UInt8) (w i : ℕ) :
    -100 ≤ windowHash text w i ∧ windowHash text w i ≤ 100 ∧
      windowHash text w i % 101 = charsValue (window w text i) % 101 := by
  unfold windowHash
  split_ifs with h
  · rw [h]
    exact hashOf_spec _
  · omega

/-- The search finds the pattern in the window exactly when it prints the index. -/
theorem found_iff (text pattern : List UInt8) (i : ℕ) :
    windowHash text pattern.length i = hashOf pattern ∧ pattern = window pattern.length text i ↔
      Found text pattern i := by
  unfold Found windowHash
  rw [and_comm, eq_comm (a := pattern)]
  refine and_congr_right fun heq => ?_
  obtain ⟨hlo, hhi, hmod⟩ := hashOf_spec pattern
  split_ifs with h
  · rw [h] at heq
    exact iff_of_true (congrArg hashOf heq) (Or.inl h)
  · rw [heq]
    omega

/-- The roll takes the hash of a window to the hash of the next one. -/
theorem roll_windowHash {text : List UInt8} {m i : ℕ} (hi : i + (m + 1) < text.length) :
    (256 * (windowHash text (m + 1) i - charVal text[i] * (256^m % 101)) +
      charVal text[i + (m + 1)]) % 101 = windowHash text (m + 1) (i + 1) := by
  obtain ⟨-, -, hmod⟩ := windowHash_spec text (m + 1) i
  have hlen : (window m text (i + 1)).length = m := length_window (by omega)
  have hnext : window (m + 1) text (i + 1) = window m text (i + 1) ++ [text[i + (m + 1)]] := by
    rw [window_eq_concat (show i + 1 + m < text.length by omega)]
    congr 3
    omega
  have hrolled : windowHash text (m + 1) (i + 1) =
      charsValue (window (m + 1) text (i + 1)) % 101 := if_neg i.succ_ne_zero
  rw [window_eq_cons m (show i < text.length by omega), charsValue_cons, hlen] at hmod
  rw [hrolled, hnext, charsValue_concat]
  -- Modulo 101, the hash and the power stand for the integers they are the residues of.
  have hpow : (256 : ℤ)^m % 101 ≡ 256^m [ZMOD 101] := Int.mod_modEq _ _
  have hcongr := ((Int.ModEq.sub hmod (hpow.mul_left (charVal text[i]))).mul_left 256).add_right
    (charVal text[i + (m + 1)])
  rw [add_sub_cancel_left, mul_comm (256 : ℤ) (charsValue _)] at hcongr
  exact hcongr

/-- The comparison of a pass finds the pattern exactly when the index is to be printed. -/
theorem compare_eq {t p : List UInt8} {i : ℕ} (hi : i + (cstr p).length ≤ (cstr t).length) :
    compare t p (cstr p).length (hashOf (cstr p)) (windowHash (cstr t) (cstr p).length i) i =
      some (decide (Found (cstr t) (cstr p) i)) := by
  have hiff := found_iff (cstr t) (cstr p) i
  rw [compare, memcmpEq_eq hi]
  split_ifs with h
  · rw [beq_eq_decide]
    exact congrArg some (decide_eq_decide.mpr ((and_iff_right h).symm.trans hiff))
  · rw [decide_eq_false (fun hf => h (hiff.mpr hf).1)]

/-- One pass of the loop: the index is printed if the pattern is found there, and the hash is rolled
on to the next window, if there is one. -/
theorem pass_eq {t p : List UInt8} (ht : 0 ∈ t) {m i : ℕ} (hm : (cstr p).length = m + 1)
    (hi : i + (m + 1) ≤ (cstr t).length) (hlen : ((cstr t).length : ℤ) ≤ intMax) (out : List ℕ) :
    ∃ next, pass t p (m + 1) (256^m % 101) (hashOf (cstr p))
        (windowHash (cstr t) (m + 1) i, out) i =
        some (next, if Found (cstr t) (cstr p) i then out ++ [i] else out) ∧
      (i + (m + 1) < (cstr t).length → next = windowHash (cstr t) (m + 1) (i + 1)) := by
  obtain ⟨hlo, hhi, -⟩ := windowHash_spec (cstr t) (m + 1) i
  have hcompare := compare_eq (t := t) (p := p) (i := i) (by omega)
  rw [hm] at hcompare
  push_cast at hcompare
  -- The bytes that leave and come in; past the last window, the text's NUL comes in.
  have hleft : byteAt t i = some (cstr t)[i] := by
    rw [byteAt_eq ht (by omega), charAt_of_lt (by omega)]
  have hindex : checkInt ((i : ℤ) + (m + 1)) = some ((i : ℤ) + (m + 1)) :=
    checkInt_of_nonneg (by omega) (by omega)
  obtain ⟨right, hright, hlast⟩ : ∃ right, byteAt t ((i : ℤ) + (m + 1)) = some right ∧
      ∀ h : i + (m + 1) < (cstr t).length, right = (cstr t)[i + (m + 1)] := by
    have hbyte := byteAt_eq ht hi
    push_cast at hbyte
    rw [hbyte]
    rcases hi.lt_or_eq with hlt | heq
    · exact ⟨_, charAt_of_lt hlt, fun _ => rfl⟩
    · exact ⟨0, by rw [heq, charAt]; simp, fun hlt => by omega⟩
  have hpow0 : 0 ≤ (256 : ℤ)^m % 101 := Int.emod_nonneg _ (by decide)
  have hpow100 : (256 : ℤ)^m % 101 < 101 := Int.emod_lt_of_pos _ (by decide)
  have hroll := roll_eq hpow0 (by omega) hlo hhi (cstr t)[i] right
  have hnext : i + (m + 1) < (cstr t).length →
      (256 * (windowHash (cstr t) (m + 1) i - charVal (cstr t)[i] * (256^m % 101)) +
        charVal right) % 101 = windowHash (cstr t) (m + 1) (i + 1) := by
    intro hlt
    rw [hlast hlt]
    exact roll_windowHash hlt
  refine ⟨_, ?_, hnext⟩
  simp only [pass, hcompare, hleft, hindex, hright, hroll, Option.bind_eq_bind, Option.bind_some]
  simp

/-- The loop up to an index. -/
theorem loop_eq {t p : List UInt8} (ht : 0 ∈ t) {m : ℕ} (hm : (cstr p).length = m + 1)
    (hlen : ((cstr t).length : ℤ) ≤ intMax) {n : ℕ} (hn : n + m ≤ (cstr t).length) :
    ∃ t_hash, (List.range n).foldlM (pass t p (m + 1) (256^m % 101) (hashOf (cstr p)))
        (windowHash (cstr t) (m + 1) 0, []) =
        some (t_hash, (List.range n).filter fun i => Found (cstr t) (cstr p) i) ∧
      (n + m < (cstr t).length → t_hash = windowHash (cstr t) (m + 1) n) := by
  induction n with
  | zero => exact ⟨_, rfl, fun _ => rfl⟩
  | succ n ih =>
    obtain ⟨t_hash, hloop, hhash⟩ := ih (by omega)
    obtain rfl := hhash (by omega)
    obtain ⟨next, hpass, hnext⟩ := pass_eq ht hm (show n + (m + 1) ≤ (cstr t).length by omega) hlen
      ((List.range n).filter fun i => Found (cstr t) (cstr p) i)
    refine ⟨next, ?_, fun hlt => hnext (by omega)⟩
    rw [List.range_succ, List.foldlM_append, hloop, List.filter_append]
    simp only [Option.bind_eq_bind, Option.bind_some, List.foldlM_cons, List.foldlM_nil, hpass]
    by_cases hf : Found (cstr t) (cstr p) n <;> simp [hf]

/-- A length that fits in an `int`. -/
theorem strlen_eq {mem : List UInt8} (hmem : 0 ∈ mem) (hlen : ((cstr mem).length : ℤ) ≤ intMax) :
    strlen mem = some ((cstr mem).length : ℤ) := by
  rw [strlen, readCStr, if_pos hmem, Option.map_some,
    toInt_of_nonneg (by omega) hlen]

/-- What the search prints, for a pattern of one byte or more that is no longer than the text. -/
theorem rabinKarp_eq {t p : List UInt8} (ht : 0 ∈ t) (hp : 0 ∈ p) (hpos : 1 ≤ (cstr p).length)
    (hle : (cstr p).length ≤ (cstr t).length) (hlen : ((cstr t).length : ℤ) ≤ intMax) :
    RabinKarp t p = some ((List.range ((cstr t).length - (cstr p).length + 1)).filter fun i =>
      Found (cstr t) (cstr p) i) := by
  obtain ⟨m, hm⟩ : ∃ m, (cstr p).length = m + 1 := ⟨(cstr p).length - 1, by omega⟩
  have hpower := power_eq (n := m) (by omega)
  have hhashes := initialHashes_eq ht hp hle le_rfl
  have hlast : checkInt (((cstr t).length : ℤ) - (cstr p).length) =
      some (((cstr t).length : ℤ) - (cstr p).length) :=
    checkInt_of_nonneg (by omega) (by omega)
  have hrange : (((cstr t).length : ℤ) - (cstr p).length + 1).toNat =
      (cstr t).length - (cstr p).length + 1 := by omega
  obtain ⟨t_hash, hloop, -⟩ :=
    loop_eq (n := (cstr t).length - (cstr p).length + 1) ht hm hlen (by omega)
  have hfirst : hashOf ((cstr t).take (m + 1)) = windowHash (cstr t) (m + 1) 0 := rfl
  rw [List.take_length, hm] at hhashes
  rw [hm] at hlast hrange hloop ⊢
  push_cast at hhashes hlast hrange
  have hlen' : ((cstr p).length : ℤ) ≤ intMax := by omega
  simp only [RabinKarp, strlen_eq ht hlen, strlen_eq hp hlen',
    hm, Option.bind_eq_bind, Option.bind_some]
  push_cast
  simp only [hpower, hhashes, hlast, hrange, Option.bind_some, hfirst, hloop]
  rfl

/-! ## Which patterns have a negative hash -/

/-- After its longest prefix whose value is divisible by 101, a pattern ends, or goes on with a
nonnegative byte. -/
def NonnegAfter (p : List UInt8) : Prop :=
  ∀ j (h : j < p.length), 101 ∣ charsValue (p.take j) →
    (∀ k, j < k → k ≤ p.length → ¬ 101 ∣ charsValue (p.take k)) → 0 ≤ charVal p[j]

/-- The hash is zero exactly when the value is divisible by 101. -/
theorem hashOf_eq_zero_iff (str : List UInt8) : hashOf str = 0 ↔ 101 ∣ charsValue str := by
  have hspec := hashOf_spec str
  omega

/-- A byte after a nonzero hash does not change its sign, unless the hash becomes zero. -/
theorem hashOf_concat_nonneg_iff {str : List UInt8} {c : UInt8} (h : hashOf str ≠ 0)
    (hc : hashOf (str ++ [c]) ≠ 0) : 0 ≤ hashOf (str ++ [c]) ↔ 0 ≤ hashOf str := by
  obtain ⟨hlo, hhi⟩ := charVal_bounds c
  obtain ⟨-, hpos, hneg⟩ := tmod_spec (256 * hashOf str + charVal c)
  rw [hashOf_concat] at hc ⊢
  omega

/-- After the longest prefix whose value is divisible by 101, the hash keeps the sign of the next
byte. -/
theorem hashOf_take_nonneg_iff {p : List UInt8} {j : ℕ} (hj : j < p.length)
    (hdvd : 101 ∣ charsValue (p.take j))
    (hlast : ∀ k, j < k → k ≤ p.length → ¬ 101 ∣ charsValue (p.take k)) {k : ℕ} (hjk : j < k)
    (hk : k ≤ p.length) : 0 ≤ hashOf (p.take k) ↔ 0 ≤ charVal p[j] := by
  have hne : ∀ k, j < k → k ≤ p.length → hashOf (p.take k) ≠ 0 := fun k hjk hk h =>
    hlast k hjk hk ((hashOf_eq_zero_iff _).mp h)
  induction k, hjk using Nat.le_induction with
  | base =>
    have hzero := (hashOf_eq_zero_iff _).mpr hdvd
    have hfirst := hne (j + 1) (by omega) hk
    obtain ⟨-, hpos, hneg⟩ := tmod_spec (charVal p[j])
    rw [List.take_succ_eq_append_getElem hj, hashOf_concat, hzero, mul_zero, zero_add] at hfirst ⊢
    omega
  | succ k hjk ih =>
    have hlt : k < p.length := hk
    have hprev := ih hlt.le
    have hnext := hne (k + 1) (by omega) hk
    rw [List.take_succ_eq_append_getElem hlt] at hnext ⊢
    exact (hashOf_concat_nonneg_iff (hne k hjk hlt.le) hnext).trans hprev

/-- The patterns whose hash is not negative. -/
theorem hashOf_nonneg_iff (p : List UInt8) : 0 ≤ hashOf p ↔ NonnegAfter p := by
  constructor
  · intro h j hj hdvd hlast
    rw [← hashOf_take_nonneg_iff hj hdvd hlast hj le_rfl, List.take_length]
    exact h
  · intro h
    -- The longest prefix whose value is divisible by 101; the empty one is such a prefix.
    have hdvd : 101 ∣ charsValue (p.take
        (Nat.findGreatest (fun j => 101 ∣ charsValue (p.take j)) p.length)) :=
      Nat.findGreatest_spec (P := fun j => 101 ∣ charsValue (p.take j)) (Nat.zero_le _) (dvd_zero _)
    have hlast := fun k => Nat.findGreatest_is_greatest
      (P := fun j => 101 ∣ charsValue (p.take j)) (n := p.length) (k := k)
    have hle := Nat.findGreatest_le (P := fun j => 101 ∣ charsValue (p.take j)) p.length
    generalize Nat.findGreatest (fun j => 101 ∣ charsValue (p.take j)) p.length = j
      at hdvd hlast hle
    rcases hle.lt_or_eq with hj | hj
    · have hsign := hashOf_take_nonneg_iff hj hdvd hlast hj le_rfl
      rw [List.take_length] at hsign
      exact hsign.mpr (h j hj hdvd hlast)
    · rw [hj, List.take_length] at hdvd
      exact ((hashOf_eq_zero_iff p).mpr hdvd).ge

/-! ## What the search reports -/

/-- For a text whose length is an `int`, and a pattern of one byte or more that is no longer, the
search reports exactly the occurrences if and only if the pattern does not occur after the first
index, or has a nonnegative byte after its longest prefix whose value is divisible by 101. -/
theorem reports_iff (t p : List UInt8) (ht : 0 ∈ t) (hp : 0 ∈ p) (hpos : 1 ≤ (cstr p).length)
    (hle : (cstr p).length ≤ (cstr t).length) (hlen : ((cstr t).length : ℤ) ≤ intMax) :
    Reports t p ↔
      (∀ i, 1 ≤ i → window (cstr p).length (cstr t) i ≠ cstr p) ∨ NonnegAfter (cstr p) := by
  -- An occurrence lies in the text.
  have hinside : ∀ i, window (cstr p).length (cstr t) i = cstr p →
      i + (cstr p).length ≤ (cstr t).length := by
    intro i hi
    have hwlen := congrArg List.length hi
    rw [window, List.length_take, List.length_drop] at hwlen
    omega
  rw [← hashOf_nonneg_iff]
  unfold Reports
  rw [rabinKarp_eq ht hp hpos hle hlen]
  constructor
  · rintro ⟨found, hfound, hall⟩
    obtain rfl := Option.some.inj hfound
    by_contra hcon
    rw [not_or, not_forall] at hcon
    obtain ⟨⟨i, hi⟩, hneg⟩ := hcon
    rw [Classical.not_imp, not_not] at hi
    have hmem := (hall i).mpr ⟨hinside i hi.2, hi.2⟩
    have hf : Found (cstr t) (cstr p) i := of_decide_eq_true (List.mem_filter.mp hmem).2
    rcases hf.2 with h0 | h0
    · omega
    · exact hneg h0
  · intro h
    refine ⟨_, rfl, fun i => ?_⟩
    rw [List.mem_filter, List.mem_range, decide_eq_true_eq]
    constructor
    · exact fun hi => ⟨hinside i hi.2.1, hi.2.1⟩
    · rintro ⟨hi, hocc⟩
      refine ⟨by omega, hocc, ?_⟩
      rcases h with hnone | hsign
      · exact Or.inl (by by_contra hne; exact hnone i (by omega) hocc)
      · exact Or.inr hsign

/-- `reports_iff` for the text `"test a test"` and the pattern `"test"`. -/
theorem reports_test : Reports [116, 101, 115, 116, 32, 97, 32, 116, 101, 115, 116, 0]
    [116, 101, 115, 116, 0] :=
  (reports_iff _ _ (by decide) (by decide) (by decide) (by decide) (by decide)).mpr
    (Or.inr fun j hj _ _ => by
      have hall : ∀ c ∈ cstr [116, 101, 115, 116, 0], 0 ≤ charVal c := by decide +kernel
      exact hall _ (List.getElem_mem hj))

/-- The pattern of the one byte `255` occurs at index 1 of the text `1`, `255`, and is not reported:
its hash is -1, and the rolled one is 100. -/
theorem not_reports_negative :
    ¬ ∀ t p : List UInt8, 0 ∈ t → 0 ∈ p → 1 ≤ (cstr p).length →
        (cstr p).length ≤ (cstr t).length → Reports t p := by
  intro hall
  obtain ⟨found, hfound, hiff⟩ := hall [1, 255, 0] [255, 0] (by decide) (by decide) (by decide)
    (by decide)
  have hrun : RabinKarp [1, 255, 0] [255, 0] = some [] := by decide
  rw [hrun] at hfound
  obtain rfl := Option.some.inj hfound
  exact absurd ((hiff 1).mpr (by decide)) List.not_mem_nil

end Rk

end CxxPandora.Dsaax
