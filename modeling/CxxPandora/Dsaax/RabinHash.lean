import CxxPandora.Lib.Bytes
import CxxPandora.Lib.RollingHash
import CxxPandora.Lib.Words
import Mathlib.Data.Int.ModEq

/-!
# The Rabin hash

`RabinHash` of `dsaax/rabin_karp/rk1.cpp`: the value of a window as a numeral in base 256, modulo
101, in 64-bit unsigned arithmetic. A negative `char` is extended to a number just below `2^64`,
which is not congruent to it modulo 101: where the addition does not wrap back, the hash is another
residue. `hashOf_eq` says what the hash is when every addition does, and `rollsRight_of_noWraps`
that rolling then agrees with recomputing.
-/

namespace CxxPandora.Dsaax

open Lib

/-- `RabinHash`: the power of the base that the first character of a window has. -/
structure RabinHash where
  /-- `max_power`. -/
  max_power : UInt64

namespace RabinHash

/-- `base`. -/
def base : UInt64 := 256

/-- `prime`. -/
def prime : UInt64 := 101

/-- The constructor: one multiplication for each `i` from 1 to `window_size - 1`. -/
def new (window_size : ℕ) : RabinHash where
  max_power := (fun max_power => (max_power * base) % prime)^[window_size - 1] 1

/-- `computeInitialHash`. -/
def computeInitialHash (str : List UInt8) (len : ℕ) : Option UInt64 :=
  (List.range len).foldlM
    (fun hash i => (charAt str i).map fun c => (hash * base + charToUInt64 c) % prime) 0

/-- `rollHash`. -/
def rollHash (rh : RabinHash) (prev_hash : UInt64) (left_char right_char : UInt8) : UInt64 :=
  let prev_hash := (prev_hash + prime - (charToUInt64 left_char * rh.max_power) % prime) % prime
  (prev_hash * base + charToUInt64 right_char) % prime

/-- The loop of `rabinExample`: after `i` rolls from the hash of the first window. -/
def rollTo (window_size : ℕ) (text : List UInt8) (i : ℕ) : Option UInt64 :=
  rolled (fun hash left right => some ((new window_size).rollHash hash left right)) window_size text
    (computeInitialHash text window_size) i

/-- Rolling equals recomputing at every position of the text. -/
def RollsRight (window_size : ℕ) (text : List UInt8) : Prop :=
  ∀ i, i + window_size ≤ text.length →
    ∃ hash, rollTo window_size text i = some hash ∧
      computeInitialHash (window window_size text i) window_size = some hash

/-- No extended sign stays: a character that follows characters whose value is divisible by 101 is
not negative. -/
def NoWrap (str : List UInt8) : Prop :=
  ∀ pre c, pre ++ [c] <+: str → 101 ∣ charsValue pre → 0 ≤ charVal c

/-! ## Recomputing -/

/-- The hash of all of a string. -/
def hashOf (str : List UInt8) : UInt64 :=
  str.foldl (fun hash c => (hash * base + charToUInt64 c) % prime) 0

/-- The hash of one more character. -/
theorem hashOf_concat (str : List UInt8) (c : UInt8) :
    hashOf (str ++ [c]) = (hashOf str * base + charToUInt64 c) % prime := by
  rw [hashOf, List.foldl_append]
  rfl

/-- `computeInitialHash` is the hash of the first characters. -/
theorem computeInitialHash_eq {str : List UInt8} {len : ℕ} (h : len ≤ str.length) :
    computeInitialHash str len = some (hashOf (str.take len)) := by
  unfold computeInitialHash
  induction len with
  | zero => rfl
  | succ len ih =>
    have hlt : len < str.length := h
    rw [List.range_succ, List.foldlM_append, ih (by omega), List.take_succ_eq_append_getElem hlt,
      hashOf_concat]
    simp [charAt_of_lt hlt]

/-- A residue modulo `prime` is below 101. -/
theorem toNat_mod_prime_lt (x : UInt64) : (x % prime).toNat < 101 := by
  rw [UInt64.toNat_mod]
  exact Nat.mod_lt _ (by decide)

/-- A hash is a residue modulo 101. -/
theorem toNat_hashOf_lt (str : List UInt8) : (hashOf str).toNat < 101 := by
  rcases List.eq_nil_or_concat str with rfl | ⟨str, c, rfl⟩
  · decide
  · rw [List.concat_eq_append, hashOf_concat]
    exact toNat_mod_prime_lt _

/-- Appending a character to a residue, when the sign of the character does not stay. -/
theorem toNat_append {h : UInt64} {c : UInt8} (hh : h.toNat < 101)
    (hc : h.toNat = 0 → 0 ≤ charVal c) :
    (((h * base + charToUInt64 c) % prime).toNat : ℤ) = (h.toNat * 256 + charVal c) % 101 := by
  have hbase : base.toNat = 256 := rfl
  have hprime : prime.toNat = 101 := rfl
  obtain ⟨hlo, hhi⟩ := charVal_bounds c
  have hsum : ((h.toNat : ℤ) * 256 % 2^64 + charVal c % 2^64) % 2^64 =
      h.toNat * 256 + charVal c := by
    rw [← Int.add_emod]
    exact Int.emod_eq_of_lt (by omega) (by omega)
  rw [UInt64.toNat_mod, UInt64.toNat_add, UInt64.toNat_mul, hbase, hprime, Int.natCast_mod,
    Int.natCast_mod, Int.natCast_add, toNat_charToUInt64, Int.natCast_mod, Int.natCast_mul]
  exact congrArg (· % 101) hsum

/-- Without a wrap, the hash of a string is its value modulo 101. -/
theorem hashOf_eq {str : List UInt8} (h : NoWrap str) :
    ((hashOf str).toNat : ℤ) = charsValue str % 101 := by
  induction str using List.reverseRecOn with
  | nil => rfl
  | append_singleton str c ih =>
    have hstr : ((hashOf str).toNat : ℤ) = charsValue str % 101 :=
      ih fun pre d hpre => h pre d (hpre.trans (List.prefix_append _ _))
    have hc : (hashOf str).toNat = 0 → 0 ≤ charVal c := fun hzero =>
      h str c (List.prefix_refl _) (Int.dvd_of_emod_eq_zero (by rw [← hstr, hzero]; rfl))
    rw [hashOf_concat, toNat_append (toNat_hashOf_lt str) hc, hstr, charsValue_concat]
    omega

/-! ## Rolling -/

/-- The constructor's power is the base's, modulo 101. -/
theorem toNat_max_power (n : ℕ) : (new (n + 1)).max_power.toNat = 256^n % 101 := by
  have hnew : (new (n + 1)).max_power =
      (fun max_power => (max_power * base) % prime)^[n] 1 := rfl
  rw [hnew]
  induction n with
  | zero => rfl
  | succ n ih =>
    have hbase : base.toNat = 256 := rfl
    have hprime : prime.toNat = 101 := rfl
    rw [Function.iterate_succ_apply', UInt64.toNat_mod, UInt64.toNat_mul, ih rfl, hbase, hprime,
      pow_succ 256 n]
    have hlt : 256^n % 101 < 101 := Nat.mod_lt _ (by decide)
    rw [Nat.mod_eq_of_lt (show 256^n % 101 * 256 < 2^64 by omega), Nat.mod_mul_mod]

/-- Taking a nonnegative first character off a residue. -/
theorem toNat_remove {h mp : UInt64} {c : UInt8} (hh : h.toNat < 101) (hmp : mp.toNat < 101)
    (hc : 0 ≤ charVal c) :
    (((h + prime - (charToUInt64 c * mp) % prime) % prime).toNat : ℤ) =
      (h.toNat - charVal c * mp.toNat) % 101 := by
  have hprime : prime.toNat = 101 := rfl
  obtain ⟨-, hhi⟩ := charVal_bounds c
  have hext := toNat_charToUInt64 c
  rw [Int.emod_eq_of_lt hc (by omega)] at hext
  -- The product of the character and the power does not wrap.
  have hprod : ((charToUInt64 c * mp).toNat : ℤ) = charVal c * mp.toNat := by
    have hle : charVal c * mp.toNat ≤ 127 * 100 := by
      apply mul_le_mul hhi (by omega) (by omega) (by omega)
    have hnonneg : 0 ≤ charVal c * mp.toNat := by positivity
    rw [UInt64.toNat_mul, Int.natCast_mod, Int.natCast_mul, hext]
    exact Int.emod_eq_of_lt hnonneg (by omega)
  rw [UInt64.toNat_mod, UInt64.toNat_sub, UInt64.toNat_add, UInt64.toNat_mod, hprime]
  omega

/-- A roll takes the hash of a window to the hash of the next one, when neither wraps. -/
theorem rollHash_hashOf {x y : UInt8} {str : List UInt8} (hx : NoWrap (x :: str))
    (hy : NoWrap (str ++ [y])) :
    (new (str.length + 1)).rollHash (hashOf (x :: str)) x y = hashOf (str ++ [y]) := by
  have hstr : NoWrap str := fun pre c hpre => hy pre c (hpre.trans (List.prefix_append _ _))
  have hx0 : 0 ≤ charVal x := hx [] x ⟨str, rfl⟩ (dvd_zero _)
  have hmp : (new (str.length + 1)).max_power.toNat < 101 := by
    rw [toNat_max_power]
    exact Nat.mod_lt _ (by decide)
  -- What is left when the first character is taken off is the hash of the rest.
  have hrest : (hashOf (x :: str) + prime -
      (charToUInt64 x * (new (str.length + 1)).max_power) % prime) % prime = hashOf str := by
    apply UInt64.toNat_inj.mp
    zify
    rw [toNat_remove (toNat_hashOf_lt _) hmp hx0, hashOf_eq hx, hashOf_eq hstr, toNat_max_power,
      charsValue_cons]
    push_cast
    rw [Int.sub_emod, Int.emod_emod, Int.mul_emod, Int.emod_emod, ← Int.mul_emod, ← Int.sub_emod,
      add_sub_cancel_left]
  rw [rollHash, hashOf_concat, hrest]

/-- With a window of one character, a roll takes off all of the hash. -/
theorem rollHash_hashOf_singleton (x y : UInt8) :
    (new 1).rollHash (hashOf [x]) x y = hashOf [y] := by
  have hmp : (new 1).max_power = 1 := rfl
  have hone : ∀ c, hashOf [c] = charToUInt64 c % prime := fun c => by simp [hashOf]
  have hrest : (charToUInt64 x % prime + prime - charToUInt64 x % prime) % prime = 0 := by
    rw [UInt64.add_comm, UInt64.add_sub_cancel]
    rfl
  rw [rollHash, hmp, hone, hone, UInt64.mul_one, hrest, UInt64.zero_mul, UInt64.zero_add]

/-- The rolled hashes agree with recomputing exactly when every roll takes the hash of a window to
the hash of the next one. -/
theorem rollsRight_iff_rollHash {w : ℕ} {text : List UInt8} (h : w + 1 ≤ text.length) :
    RollsRight (w + 1) text ↔
      ∀ i (h : i + (w + 1) < text.length),
        (new (w + 1)).rollHash (hashOf (text[i] :: window w text (i + 1))) text[i]
          text[i + (w + 1)] = hashOf (window w text (i + 1) ++ [text[i + (w + 1)]]) := by
  have hwindow : ∀ i, i + (w + 1) ≤ text.length →
      computeInitialHash (window (w + 1) text i) (w + 1) =
        some (hashOf (window (w + 1) text i)) := by
    intro i hi
    have hlen := length_window hi
    rw [computeInitialHash_eq (by omega), List.take_of_length_le (by omega)]
  have hfirst : computeInitialHash text (w + 1) = some (hashOf (window (w + 1) text 0)) :=
    computeInitialHash_eq h
  have hroll := rolled_eq_iff hashOf
    (fun hash left right => some ((new (w + 1)).rollHash hash left right)) w text
  simp only [Option.some.injEq] at hroll
  rw [← hroll]
  unfold RollsRight rollTo
  rw [hfirst]
  refine forall₂_congr fun i hi => ?_
  rw [hwindow i hi]
  constructor
  · rintro ⟨hash, hrolled, hhash⟩
    rw [hrolled, hhash]
  · exact fun hrolled => ⟨_, hrolled, rfl⟩

/-- No window of a text wraps. -/
def NoWraps (window_size : ℕ) (text : List UInt8) : Prop :=
  ∀ i, i + window_size ≤ text.length → NoWrap (window window_size text i)

/-- Rolling equals recomputing when the window is one character, and when no window wraps. -/
theorem rollsRight_of_noWraps {window_size : ℕ} {text : List UInt8} (hpos : 1 ≤ window_size)
    (hlt : window_size < text.length) (h : window_size = 1 ∨ NoWraps window_size text) :
    RollsRight window_size text := by
  obtain ⟨w, rfl⟩ : ∃ w, window_size = w + 1 := ⟨window_size - 1, by omega⟩
  rw [rollsRight_iff_rollHash (by omega)]
  intro i hi
  have hlen : (window w text (i + 1)).length = w := length_window (by omega)
  rcases h with hone | hwraps
  · obtain rfl : w = 0 := by omega
    rw [List.length_eq_zero_iff.mp hlen]
    exact rollHash_hashOf_singleton _ _
  · have hx : NoWrap (text[i] :: window w text (i + 1)) := by
      rw [← window_eq_cons]
      exact hwraps i (by omega)
    have hy : NoWrap (window w text (i + 1) ++ [text[i + (w + 1)]]) := by
      have hnext := hwraps (i + 1) (by omega)
      rw [window_eq_concat (show i + 1 + w < text.length by omega)] at hnext
      convert hnext using 4
      omega
    have hroll := rollHash_hashOf hx hy
    rwa [hlen] at hroll

/-! ## Windows of two characters or more -/

/-- Appending NULs multiplies a hash by a power of the base. -/
theorem toNat_hashOf_append_zeros (str : List UInt8) (k : ℕ) :
    ((hashOf (str ++ List.replicate k 0)).toNat : ℤ) = (hashOf str).toNat * 256^k % 101 := by
  induction k with
  | zero =>
    have hlt := toNat_hashOf_lt str
    rw [List.replicate_zero, List.append_nil, pow_zero, mul_one]
    omega
  | succ k ih =>
    have hzero : charVal 0 = 0 := by decide
    rw [List.replicate_succ', ← List.append_assoc, hashOf_concat,
      toNat_append (toNat_hashOf_lt _) (fun _ => hzero.ge), ih, hzero, add_zero, Int.mul_emod,
      Int.emod_emod, ← Int.mul_emod, pow_succ, mul_assoc]

/-- A text of one positive character, a negative one, and NULs, one character longer than the
window. -/
def wrapText (k : ℕ) : List UInt8 := 1 :: 255 :: List.replicate (k + 1) 0

/-- No power of the base is divisible by 101. -/
theorem not_dvd_base_pow (k : ℕ) : ¬ 101 ∣ 256^k := by
  intro h
  have hcop : Nat.Coprime 101 (256^k) := Nat.Coprime.pow_right k (by decide)
  exact absurd (hcop.eq_one_of_dvd h) (by decide)

/-- The roll from the first window of that text gives another hash than the second window has: the
negative character's sign is extended in the window that it starts, and not in the one before. -/
theorem rollHash_wrapText (k : ℕ) :
    (new (k + 2)).rollHash (hashOf (1 :: 255 :: List.replicate k 0)) 1 0 ≠
      hashOf (255 :: List.replicate k 0 ++ [0]) := by
  intro heq
  have hone : charVal 1 = 1 := by decide
  have hzero : charVal 0 = 0 := by decide
  have hbefore : ((hashOf (1 :: 255 :: List.replicate k 0)).toNat : ℤ) = 53 * 256^k % 101 :=
    toNat_hashOf_append_zeros [1, 255] k
  have hafter : ((hashOf (255 :: List.replicate k 0 ++ [0])).toNat : ℤ) =
      78 * 256^(k + 1) % 101 := by
    rw [List.cons_append, ← List.replicate_succ']
    exact toNat_hashOf_append_zeros [255] (k + 1)
  have hmp : (new (k + 2)).max_power.toNat = 256^(k + 1) % 101 := toNat_max_power (k + 1)
  have hmp_lt : (new (k + 2)).max_power.toNat < 101 := by
    rw [hmp]
    exact Nat.mod_lt _ (by decide)
  have hroll : (((new (k + 2)).rollHash (hashOf (1 :: 255 :: List.replicate k 0)) 1 0).toNat : ℤ) =
      ((53 * 256^k % 101 - 256^(k + 1) % 101) % 101 * 256) % 101 := by
    rw [rollHash, toNat_append (toNat_mod_prime_lt _) (fun _ => hzero.ge),
      toNat_remove (toNat_hashOf_lt _) hmp_lt (by decide), hone, hzero, hmp, hbefore, one_mul,
      add_zero, Int.natCast_mod, Int.natCast_pow]
    rfl
  -- The two residues differ by `79 * 256^(k + 1)`.
  rw [heq, hafter, pow_succ] at hroll
  have hdvd : (101 : ℤ) ∣ 256^k := by
    generalize (256 : ℤ)^k = power at hroll ⊢
    omega
  exact not_dvd_base_pow k (by exact_mod_cast hdvd)

/-- Rolling does not equal recomputing on that text. -/
theorem not_rollsRight_wrapText (k : ℕ) : ¬ RollsRight (k + 2) (wrapText k) := by
  rw [rollsRight_iff_rollHash (by simp [wrapText])]
  intro hall
  have hlt : 0 + (k + 1 + 1) < (wrapText k).length := by simp [wrapText]
  have hlast : (wrapText k)[0 + (k + 1 + 1)] = 0 := by simp [wrapText]
  have hwindow : window (k + 1) (wrapText k) (0 + 1) = 255 :: List.replicate k 0 := by
    simp [window, wrapText, List.take_replicate]
  have hroll := hall 0 hlt
  rw [hwindow, hlast] at hroll
  exact rollHash_wrapText k hroll

/-- Rolling equals recomputing in every text when the window is one character, and otherwise in the
texts no window of which wraps; and only with a window of one character does it in all texts. -/
theorem rolling_eq_recomputing (window_size : ℕ) (hpos : 1 ≤ window_size) :
    (∀ text : List UInt8, window_size < text.length →
        (window_size = 1 ∨ NoWraps window_size text) → RollsRight window_size text) ∧
      ((∀ text : List UInt8, window_size < text.length → RollsRight window_size text) ↔
        window_size = 1) := by
  refine ⟨fun text hlt h => rollsRight_of_noWraps hpos hlt h, fun hall => ?_,
    fun hone text hlt => ?_⟩
  · by_contra hne
    obtain ⟨k, rfl⟩ : ∃ k, window_size = k + 2 := ⟨window_size - 2, by omega⟩
    exact not_rollsRight_wrapText k (hall (wrapText k) (by simp [wrapText]))
  · exact rollsRight_of_noWraps hpos hlt (Or.inl hone)

/-- `rolling_eq_recomputing` for windows of three characters of `"abcdefgh"`. -/
theorem rolling_eq_recomputing_letters : RollsRight 3 [97, 98, 99, 100, 101, 102, 103, 104] := by
  apply (rolling_eq_recomputing 3 (by decide)).1 _ (by decide)
  -- Letters are not negative.
  refine Or.inr fun i _ pre c hpre _ => ?_
  have hmem : c ∈ [97, 98, 99, 100, 101, 102, 103, 104] := by
    apply List.mem_of_mem_drop (i := i)
    apply List.mem_of_mem_take (i := 3)
    exact hpre.subset (List.mem_append_right _ List.mem_cons_self)
  have hall : ∀ d ∈ ([97, 98, 99, 100, 101, 102, 103, 104] : List UInt8), 0 ≤ charVal d := by
    decide +kernel
  exact hall c hmem

/-- With a window of two characters, rolling over the bytes `1`, `255`, and `0` gives another hash
than recomputing. -/
theorem not_rolling_eq_recomputing :
    ¬ ∀ (window_size : ℕ) (text : List UInt8), 1 ≤ window_size → window_size < text.length →
        RollsRight window_size text := by
  intro hall
  exact not_rollsRight_wrapText 0 (hall 2 [1, 255, 0] (by decide) (by decide))

end RabinHash

end CxxPandora.Dsaax
