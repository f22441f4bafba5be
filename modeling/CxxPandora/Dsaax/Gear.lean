import CxxPandora.Lib.RollingHash
import Mathlib.Data.Nat.ModEq
import Mathlib.RingTheory.Coprime.Lemmas

/-!
# The Gear hash

`GearHash` of `dsaax/gear/gear.cpp`. `computeHash` is a polynomial hash of the table's values in
base 2, modulo `2^64`. `rollHash` takes off the contribution of the character that leaves, and then
shifts by `1 + gear_table[right_char]`, because `+` binds tighter than `<<`, where it means to shift
by one and to add the value. `rollsRight_iff` says for which tables and texts the two agree all the
same.
-/

namespace CxxPandora.Dsaax

open Lib

/-- `GearHash`: the lookup table. -/
structure GearHash where
  /-- `gear_table`: one 64-bit value for each byte. -/
  gear_table : Vector UInt64 256

namespace GearHash

/-- `gear_table[static_cast<uint8_t>(c)]`. -/
def lookup (gh : GearHash) (c : UInt8) : UInt64 := gh.gear_table.get ⟨c.toNat, c.toNat_lt⟩

/-- `computeHash`. -/
def computeHash (gh : GearHash) (str : List UInt8) : UInt64 :=
  str.foldl (fun hash c => (hash <<< 1) + gh.lookup c) 0

/-- A 64-bit left shift, undefined for 64 bits or more. -/
def shiftLeft (x n : UInt64) : Option UInt64 := if n < 64 then some (x <<< n) else none

/-- `rollHash`. The shift amount of the result is `1 + gear_table[right_char]`. -/
def rollHash (gh : GearHash) (window_size : ℕ) (prev_hash : UInt64) (left_char right_char : UInt8) :
    Option UInt64 :=
  (shiftLeft (gh.lookup left_char) (UInt64.ofNat window_size - 1)).bind fun left_contribution =>
    shiftLeft (prev_hash - left_contribution) (1 + gh.lookup right_char)

/-- The loop of `gearExample`: after `i` rolls from the hash of the first window. -/
def rollTo (gh : GearHash) (window_size : ℕ) (text : List UInt8) (i : ℕ) : Option UInt64 :=
  rolled (gh.rollHash window_size) window_size text
    (some (gh.computeHash (window window_size text 0))) i

/-- Rolling equals recomputing at every position of the text. -/
def RollsRight (gh : GearHash) (window_size : ℕ) (text : List UInt8) : Prop :=
  ∀ i, i + window_size ≤ text.length →
    gh.rollTo window_size text i = some (gh.computeHash (window window_size text i))

/-- The Gear sum of some characters, as a natural number: each one's table value, doubled once for
every character after it. -/
def gearSum (gh : GearHash) (str : List UInt8) : ℕ :=
  polyHash 2 (str.map fun c => (gh.lookup c).toNat)

/-! ## What one roll does -/

/-- A shift by less than 64 bits is a multiplication modulo `2^64`. -/
theorem toNat_shiftLeft_of_lt (x : UInt64) {n : UInt64} (h : n.toNat < 64) :
    (x <<< n).toNat = x.toNat * 2^n.toNat % 2^64 := by
  rw [UInt64.toNat_shiftLeft, Nat.mod_eq_of_lt h, Nat.shiftLeft_eq]

/-- The Gear sum of some characters is the contribution of the first one and the sum of the
rest. -/
theorem gearSum_cons (gh : GearHash) (c : UInt8) (str : List UInt8) :
    gh.gearSum (c :: str) = (gh.lookup c).toNat * 2^str.length + gh.gearSum str := by
  rw [gearSum, List.map_cons, polyHash_cons, List.length_map]
  rfl

/-- One more character doubles the Gear sum and adds its value. -/
theorem gearSum_concat (gh : GearHash) (str : List UInt8) (c : UInt8) :
    gh.gearSum (str ++ [c]) = gh.gearSum str * 2 + (gh.lookup c).toNat := by
  rw [gearSum, List.map_append, List.map_singleton, polyHash_concat]
  rfl

/-- `computeHash` is the Gear sum modulo `2^64`. -/
theorem toNat_computeHash (gh : GearHash) (str : List UInt8) :
    (gh.computeHash str).toNat = gh.gearSum str % 2^64 := by
  induction str using List.reverseRecOn with
  | nil => rfl
  | append_singleton str c ih =>
    have hlast : gh.computeHash (str ++ [c]) = (gh.computeHash str <<< 1) + gh.lookup c := by
      simp [computeHash]
    rw [hlast, UInt64.toNat_add, toNat_shiftLeft_of_lt _ (by decide), ih, gearSum_concat]
    simp only [UInt64.toNat_one]
    omega

/-- A roll takes off exactly the contribution of the character that leaves, and shifts the hash of
the rest by one more than the table's value. -/
theorem rollHash_computeHash (gh : GearHash) (left right : UInt8) (str : List UInt8)
    (h : str.length < 64) :
    gh.rollHash (str.length + 1) (gh.computeHash (left :: str)) left right =
      shiftLeft (gh.computeHash str) (1 + gh.lookup right) := by
  have hamount : (UInt64.ofNat (str.length + 1) - 1).toNat = str.length := by
    rw [UInt64.toNat_sub, UInt64.toNat_ofNat', UInt64.toNat_one]
    omega
  have hlt : UInt64.ofNat (str.length + 1) - 1 < 64 := by
    rw [UInt64.lt_iff_toNat_lt, hamount]
    exact h
  have hrest : gh.computeHash (left :: str) -
      (gh.lookup left <<< (UInt64.ofNat (str.length + 1) - 1)) = gh.computeHash str := by
    apply UInt64.toNat_inj.mp
    rw [UInt64.toNat_sub, toNat_computeHash, toNat_computeHash, gearSum_cons,
      toNat_shiftLeft_of_lt _ (by rw [hamount]; exact h), hamount]
    omega
  rw [rollHash, shiftLeft, if_pos hlt, Option.bind_some, hrest]

/-- A shift by one more than a value gives the hash with that value appended: the value is at most
62 and solves a congruence, or it is the greatest one and the hash is one. A value of zero always
does. -/
def ShiftAppends (gh : GearHash) (str : List UInt8) (right : UInt8) : Prop :=
  ((gh.lookup right).toNat ≤ 62 ∧
      (2^(gh.lookup right).toNat - 1) * (2 * gh.gearSum str) ≡ (gh.lookup right).toNat
        [MOD 2^64]) ∨
    ((gh.lookup right).toNat = 2^64 - 1 ∧ gh.gearSum str ≡ 1 [MOD 2^64])

/-- A defined shift appends the value exactly when the two results are congruent. -/
theorem shiftLeft_eq_some_iff (gh : GearHash) (str : List UInt8) (right : UInt8) :
    shiftLeft (gh.computeHash str) (1 + gh.lookup right) = some (gh.computeHash (str ++ [right])) ↔
      (1 + gh.lookup right).toNat < 64 ∧
        gh.gearSum str * 2^(1 + gh.lookup right).toNat ≡
          gh.gearSum str * 2 + (gh.lookup right).toNat [MOD 2^64] := by
  have hlt : 1 + gh.lookup right < 64 ↔ (1 + gh.lookup right).toNat < 64 := UInt64.lt_iff_toNat_lt
  rw [shiftLeft, Option.ite_none_right_eq_some, hlt, Option.some.injEq]
  refine and_congr_right fun h => ?_
  rw [← UInt64.toNat_inj, toNat_shiftLeft_of_lt _ h, toNat_computeHash, toNat_computeHash,
    gearSum_concat, Nat.mod_mul_mod]
  rfl

/-- The condition in terms of the value and the sum. -/
theorem shiftAppends_iff (gh : GearHash) (str : List UInt8) (right : UInt8) :
    shiftLeft (gh.computeHash str) (1 + gh.lookup right) = some (gh.computeHash (str ++ [right])) ↔
      gh.ShiftAppends str right := by
  rw [shiftLeft_eq_some_iff, UInt64.toNat_add, UInt64.toNat_one, ShiftAppends]
  have hg := (gh.lookup right).toNat_lt
  generalize (gh.lookup right).toNat = g at hg ⊢
  generalize gh.gearSum str = d
  rcases Nat.lt_or_ge g (2^64 - 1) with hsmall | hmax
  · -- No wrap: the amount is `1 + g`.
    rw [Nat.mod_eq_of_lt (show 1 + g < 2^64 by omega)]
    have hpow : d * 2^(1 + g) = d * 2 + (2^g - 1) * (2 * d) := by
      have hpos : 1 ≤ 2^g := Nat.one_le_two_pow
      obtain ⟨k, hk⟩ := Nat.exists_eq_add_of_le hpos
      rw [pow_add, hk, Nat.add_sub_cancel_left]
      ring
    have hcancel : d * 2^(1 + g) ≡ d * 2 + g [MOD 2^64] ↔
        (2^g - 1) * (2 * d) ≡ g [MOD 2^64] := by
      rw [hpow]
      exact Nat.ModEq.add_iff_left rfl
    rw [hcancel]
    constructor
    · exact fun h => Or.inl ⟨by omega, h.2⟩
    · rintro (h | h)
      · exact ⟨by omega, h.2⟩
      · omega
  · -- The greatest value: the amount wraps to zero.
    obtain rfl : g = 2^64 - 1 := by omega
    have hone : d * 2^((1 + (2^64 - 1)) % 2^64) ≡ d * 2 + (2^64 - 1) [MOD 2^64] ↔
        d ≡ 1 [MOD 2^64] := by
      have hzero : (1 + (2^64 - 1)) % 2^64 = 0 := by decide
      rw [hzero, pow_zero, mul_one]
      unfold Nat.ModEq
      omega
    rw [hone]
    constructor
    · exact fun h => Or.inr ⟨rfl, h.2⟩
    · rintro (h | h)
      · omega
      · exact ⟨by decide, h.2⟩

/-! ## Rolling along a text -/

/-- Rolling equals recomputing at every position of the text exactly when, at every position but the
last, the shift appends the incoming character's value. -/
theorem rollsRight_iff_shiftAppends (gh : GearHash) {window_size : ℕ} (hpos : 1 ≤ window_size)
    (hle : window_size ≤ 64) (text : List UInt8) :
    gh.RollsRight window_size text ↔
      ∀ i (h : i + window_size < text.length),
        gh.ShiftAppends (window (window_size - 1) text (i + 1)) text[i + window_size] := by
  obtain ⟨w, rfl⟩ : ∃ w, window_size = w + 1 := ⟨window_size - 1, by omega⟩
  unfold RollsRight rollTo
  rw [rolled_eq_iff gh.computeHash (gh.rollHash (w + 1)) w text, Nat.add_sub_cancel]
  refine forall₂_congr fun i h => ?_
  have hlen : (window w text (i + 1)).length = w := length_window (by omega)
  have hroll := gh.rollHash_computeHash text[i] text[i + (w + 1)] (window w text (i + 1))
    (by omega)
  rw [hlen] at hroll
  rw [hroll, shiftAppends_iff]

/-- The Gear sum of one character repeated. -/
theorem gearSum_replicate (gh : GearHash) (c : UInt8) (n : ℕ) :
    gh.gearSum (List.replicate n c) = (gh.lookup c).toNat * (2^n - 1) := by
  induction n with
  | zero => simp [gearSum]
  | succ n ih =>
    have hpos : 1 ≤ 2^n := Nat.one_le_two_pow
    rw [List.replicate_succ, gearSum_cons, ih, List.length_replicate, ← Nat.mul_add]
    congr 1
    omega

/-- A character whose value is not zero is not appended to fewer than 64 copies of itself. -/
theorem not_shiftAppends_replicate (gh : GearHash) {c : UInt8} (hc : gh.lookup c ≠ 0) {n : ℕ}
    (hn : n < 64) : ¬ gh.ShiftAppends (List.replicate n c) c := by
  have hg : 0 < (gh.lookup c).toNat := Nat.pos_of_ne_zero fun h => hc (UInt64.toNat_inj.mp h)
  unfold ShiftAppends
  rw [gearSum_replicate]
  generalize (gh.lookup c).toNat = g at hg ⊢
  rintro (⟨hle, hmod⟩ | ⟨rfl, hmod⟩)
  · -- The value times an odd number is divisible by `2^64`, so that the value is.
    have hdvd : (2^64 : ℤ) ∣ g * (2 * ((2^g - 1 : ℕ) * (2^n - 1 : ℕ)) - 1) := by
      have h := (Nat.modEq_iff_dvd.mp hmod.symm)
      push_cast at h ⊢
      convert h using 1
      ring
    have hcop : IsCoprime (2^64 : ℤ) (2 * ((2^g - 1 : ℕ) * (2^n - 1 : ℕ)) - 1) := by
      apply IsCoprime.pow_left
      exact ⟨((2^g - 1 : ℕ) * (2^n - 1 : ℕ) : ℤ), -1, by ring⟩
    have hg64 : (2^64 : ℤ) ∣ g := hcop.dvd_of_dvd_mul_right hdvd
    have := Int.le_of_dvd (by omega) hg64
    omega
  · -- A power of two below `2^64` would be divisible by it.
    have hlt : 2^n < 2^64 := Nat.pow_lt_pow_right (by decide) hn
    have hpos : 1 ≤ 2^n := Nat.one_le_two_pow
    unfold Nat.ModEq at hmod
    omega

/-- Rolling equals recomputing at every position of a text exactly when, at every position but the
last, the shift appends the incoming character's value; and it does so in all texts exactly when
every value of the table is zero. -/
theorem rollsRight_iff (gh : GearHash) (window_size : ℕ) (hpos : 1 ≤ window_size)
    (hle : window_size ≤ 64) :
    (∀ text : List UInt8, gh.RollsRight window_size text ↔
      ∀ i (h : i + window_size < text.length),
        gh.ShiftAppends (window (window_size - 1) text (i + 1)) text[i + window_size]) ∧
      ((∀ text : List UInt8, window_size < text.length → gh.RollsRight window_size text) ↔
        ∀ c, gh.lookup c = 0) := by
  refine ⟨gh.rollsRight_iff_shiftAppends hpos hle, fun hall c => ?_, fun hzero text _ => ?_⟩
  · -- One more copy of the character than the window holds.
    by_contra hc
    have hroll := hall (List.replicate (window_size + 1) c) (by simp)
    rw [gh.rollsRight_iff_shiftAppends hpos hle] at hroll
    have happ := hroll 0 (by simp)
    have hwindow : window (window_size - 1) (List.replicate (window_size + 1) c) (0 + 1) =
        List.replicate (window_size - 1) c := by
      rw [window, List.drop_replicate, List.take_replicate]
      congr 1
      omega
    rw [hwindow, List.getElem_replicate] at happ
    exact gh.not_shiftAppends_replicate hc (by omega) happ
  · rw [gh.rollsRight_iff_shiftAppends hpos hle]
    intro i h
    rw [ShiftAppends, hzero]
    exact Or.inl ⟨by decide, by simp [Nat.ModEq]⟩

/-- `rollsRight_iff` for a table of zeros, a window of three characters, and a text of eight. -/
theorem rollsRight_zero :
    RollsRight ⟨Vector.replicate 256 0⟩ 3 [97, 98, 99, 100, 101, 102, 103, 104] :=
  (rollsRight_iff ⟨Vector.replicate 256 0⟩ 3 (by decide) (by decide)).2.mpr
    (fun c => by simp [lookup, Vector.get]) _ (by decide)

/-- With a table of ones and a window of one character, rolling over two characters gives zero, and
recomputing gives one. -/
theorem not_rollsRight_one :
    ¬ ∀ (gh : GearHash) (window_size : ℕ) (text : List UInt8), 1 ≤ window_size →
        window_size ≤ 64 → window_size < text.length → gh.RollsRight window_size text := by
  intro hall
  have hroll := hall ⟨Vector.replicate 256 1⟩ 1 [97, 98] (by decide) (by decide) (by decide) 1
    (by decide)
  exact absurd hroll (by decide +kernel)

end GearHash

end CxxPandora.Dsaax
