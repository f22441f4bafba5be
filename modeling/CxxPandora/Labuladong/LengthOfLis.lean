import CxxPandora.Lib.IncreasingSubsequence
import CxxPandora.Lib.Loops
import Mathlib.Algebra.Order.Ring.Int
import Mathlib.Data.Int.ConditionallyCompleteOrder
import Mathlib.Order.ConditionallyCompleteLattice.Basic

/-!
# The longest increasing subsequence

`lengthOfLIS` of `algorithms/labuladong/dp/dp_length_of_lis.cpp`. Its table holds, at each index,
the greatest length of an increasing subsequence that ends there. The loops count in `int` up to
the size of a vector: `isLongest_iff` shows that the result is right exactly for the vectors of
fewer than `2^31` elements.
-/

namespace CxxPandora.Labuladong

open Lib

/-- The body of the inner loop of `lengthOfLIS`. -/
def lisStep (nums : List ℤ) (i j : ℕ) (dp : List ℤ) : Option (List ℤ) :=
  nums[i]?.bind fun x => nums[j]?.bind fun y =>
    if x > y then
      dp[i]?.bind fun a => dp[j]?.bind fun b =>
        (checkInt (b + 1)).map fun b' => dp.set i (max a b')
    else some dp

/-- The table of `lengthOfLIS`. -/
def lisTable (nums : List ℤ) : Option (List ℤ) :=
  forInt nums.length (fun i dp => forInt i (lisStep nums i) 0 dp) 0
    (List.replicate nums.length 1)

/-- `lengthOfLIS`; `none` when it is undefined. -/
def lengthOfLIS (nums : List ℤ) : Option ℤ :=
  (lisTable nums).bind fun dp =>
    forInt dp.length (fun i res => dp[i]?.map fun d => max res d) 0 0

/-- The result is the greatest length of an increasing subsequence. -/
def IsLongest (nums : List ℤ) : Prop :=
  ∃ n : ℕ, lengthOfLIS nums = some (n : ℤ) ∧
    IsGreatest {n | ∃ sub : List ℤ, sub.Sublist nums ∧ sub.Pairwise (· < ·) ∧ sub.length = n} n

/-! ## The inner loop -/

/-- The length of some increasing subsequence that ends at an index, and as great as any whose last
element but one is at an index below the bound. -/
def BestBelow (nums : List ℤ) (i j : ℕ) (d : ℤ) : Prop :=
  ∃ n : ℕ, d = n ∧ IncreasesTo nums i n ∧
    ∀ k < j, ∀ m y x, nums[k]? = some y → nums[i]? = some x → y < x → IncreasesTo nums k m →
      m + 1 ≤ n

/-- The greatest length of an increasing subsequence that ends at an index. -/
def Best (nums : List ℤ) (i : ℕ) (d : ℤ) : Prop :=
  ∃ n : ℕ, d = n ∧ IsGreatest {n | IncreasesTo nums i n} n

/-- When all earlier indices have been compared, the length is the greatest. -/
theorem BestBelow.best {nums : List ℤ} {i : ℕ} {d : ℤ} (h : BestBelow nums i i d) :
    Best nums i d := by
  obtain ⟨n, hd, hn, hbest⟩ := h
  refine ⟨n, hd, hn, fun m hm => ?_⟩
  rcases IncreasesTo.cases hm with rfl | ⟨j, m', y, x, hji, hj, hi, hlt, rfl, hm'⟩
  · obtain ⟨init, -, -, -, -, rfl⟩ := hn
    exact Nat.le_add_left 1 _
  · exact hbest j hji m' y x hj hi hlt hm'

/-- One pass of the inner loop, on the table with the entry that it improves set apart. -/
theorem lisStep_spec {nums dp : List ℤ} {i j : ℕ} {d e : ℤ} (hlen : dp.length = nums.length)
    (hn : nums.length < 2^31) (hi : i < nums.length) (hj : j < i) (hd : BestBelow nums i j d)
    (hdp : dp[j]? = some e) (he : Best nums j e) :
    ∃ d', lisStep nums i j (dp.set i d) = some (dp.set i d') ∧ BestBelow nums i (j + 1) d' := by
  obtain ⟨n, rfl, hn', hbest⟩ := hd
  obtain ⟨m, rfl, hm, hgreatest⟩ := he
  have hx : nums[i]? = some nums[i] := List.getElem?_eq_getElem hi
  have hy : nums[j]? = some nums[j] := List.getElem?_eq_getElem (hj.trans hi)
  have hset : (dp.set i (n : ℤ))[i]? = some (n : ℤ) := List.getElem?_set_self (hlen ▸ hi)
  have hget : (dp.set i (n : ℤ))[j]? = some (m : ℤ) := by
    rw [List.getElem?_set_ne hj.ne', hdp]
  have hle := IncreasesTo.le hm
  have hcheck := checkInt_succ (n := m) (by omega)
  rw [lisStep, hx, hy, Option.bind_some, Option.bind_some]
  split_ifs with hlt
  · rw [hset, hget, Option.bind_some, Option.bind_some, hcheck, Option.map_some, List.set_set]
    refine ⟨_, rfl, max n (m + 1), by omega, ?_, fun k hk m' y x hky hix hyx hm' => ?_⟩
    · rcases max_choice n (m + 1) with h | h
      · rwa [h]
      · rw [h]
        exact IncreasesTo.extend hm hj hy hx hlt
    · rcases Nat.lt_succ_iff_lt_or_eq.mp hk with hk | rfl
      · exact (hbest k hk m' y x hky hix hyx hm').trans (le_max_left _ _)
      · exact (Nat.succ_le_succ (hgreatest hm')).trans (le_max_right _ _)
  · refine ⟨n, rfl, n, rfl, hn', fun k hk m' y x hky hix hyx hm' => ?_⟩
    rcases Nat.lt_succ_iff_lt_or_eq.mp hk with hk | rfl
    · exact hbest k hk m' y x hky hix hyx hm'
    · -- The element at this index is not below the last one.
      rw [← Option.some.inj (hy.symm.trans hky), ← Option.some.inj (hx.symm.trans hix)] at hyx
      exact absurd hyx hlt

/-- The inner loop makes the entry at its index the greatest length. -/
theorem lisRow_spec {nums dp : List ℤ} {i : ℕ} (hlen : dp.length = nums.length)
    (hn : nums.length < 2^31) (hi : i < nums.length) (hone : dp[i]? = some 1)
    (hbest : ∀ j < i, ∃ e, dp[j]? = some e ∧ Best nums j e) :
    ∃ d, forInt i (lisStep nums i) 0 dp = some (dp.set i d) ∧ Best nums i d := by
  have hstart : dp = dp.set i 1 := by
    obtain ⟨h, hval⟩ := List.getElem?_eq_some_iff.mp hone
    rw [← hval, List.set_getElem_self]
  have hinit : BestBelow nums i 0 1 :=
    ⟨1, rfl, increasesTo_one hi, fun k hk => absurd hk (Nat.not_lt_zero k)⟩
  have hstep : ∀ j dp', j < i → (∃ d, dp' = dp.set i d ∧ BestBelow nums i j d) →
      ∃ dp'', lisStep nums i j dp' = some dp'' ∧
        ∃ d, dp'' = dp.set i d ∧ BestBelow nums i (j + 1) d := by
    rintro j _ hj ⟨d, rfl, hd⟩
    obtain ⟨e, he, hbest⟩ := hbest j hj
    obtain ⟨d', hstep, hd'⟩ := lisStep_spec hlen hn hi hj hd he hbest
    exact ⟨_, hstep, d', rfl, hd'⟩
  obtain ⟨_, hloop, d, rfl, hd⟩ := forInt_invariant (hi.trans hn) (Nat.zero_le i)
    ⟨1, hstart, hinit⟩ hstep
  exact ⟨d, hloop, hd.best⟩

/-! ## The outer loops -/

/-- The table while the outer loop is at an index: the entries before it are final, and the others
are one. -/
structure LisInv (nums : List ℤ) (i : ℕ) (dp : List ℤ) : Prop where
  /-- The table has an entry for each number. -/
  length : dp.length = nums.length
  /-- The entries before the index are the greatest lengths. -/
  best : ∀ j < i, ∃ d, dp[j]? = some d ∧ Best nums j d
  /-- The entries from the index on are as they were. -/
  one : ∀ j, i ≤ j → j < nums.length → dp[j]? = some 1

/-- The table of a vector whose size is an `int` holds the greatest lengths. -/
theorem lisTable_spec {nums : List ℤ} (hn : nums.length < 2^31) :
    ∃ dp, lisTable nums = some dp ∧ LisInv nums nums.length dp := by
  refine forInt_invariant (I := LisInv nums) hn (Nat.zero_le _)
    ⟨List.length_replicate, fun j hj => absurd hj (Nat.not_lt_zero j), fun j _ hj => ?_⟩ ?_
  · rw [List.getElem?_replicate, if_pos hj]
  · intro i dp hi h
    obtain ⟨d, hrow, hd⟩ := lisRow_spec h.length hn hi (h.one i le_rfl hi) h.best
    refine ⟨dp.set i d, hrow, by rw [List.length_set, h.length], fun j hj => ?_, fun j hj hlt => ?_⟩
    · rcases Nat.lt_succ_iff_lt_or_eq.mp hj with hj | rfl
      · rw [List.getElem?_set_ne hj.ne']
        exact h.best j hj
      · exact ⟨d, List.getElem?_set_self (h.length ▸ hi), hd⟩
    · rw [List.getElem?_set_ne (Nat.ne_of_lt hj)]
      exact h.one j (Nat.le_of_succ_le hj) hlt

/-- The greatest entry of the table up to an index; zero when there is none. -/
def Greatest (nums : List ℤ) (i : ℕ) (res : ℤ) : Prop :=
  ∃ n : ℕ, res = n ∧ (n = 0 ∨ ∃ j < nums.length, IncreasesTo nums j n) ∧
    ∀ j < i, ∀ m, IncreasesTo nums j m → m ≤ n

/-- The last loop finds the greatest entry. -/
theorem lisMax_spec {nums dp : List ℤ} (hn : nums.length < 2^31)
    (h : LisInv nums nums.length dp) :
    ∃ res, forInt dp.length (fun i res => dp[i]?.map fun d => max res d) 0 0 = some res ∧
      Greatest nums nums.length res := by
  rw [h.length]
  refine forInt_invariant (I := Greatest nums) hn (Nat.zero_le _)
    ⟨0, rfl, Or.inl rfl, fun j hj => absurd hj (Nat.not_lt_zero j)⟩ ?_
  rintro i _ hi ⟨n, rfl, hn, hmax⟩
  obtain ⟨d, hd, m, rfl, hm, hgreatest⟩ := h.best i hi
  rw [hd, Option.map_some]
  refine ⟨_, rfl, max n m, by omega, ?_, fun j hj k hk => ?_⟩
  · rcases max_choice n m with hmax | hmax
    · rwa [hmax]
    · rw [hmax]
      exact Or.inr ⟨i, hi, hm⟩
  · rcases Nat.lt_succ_iff_lt_or_eq.mp hj with hj | rfl
    · exact (hmax j hj k hk).trans (le_max_left _ _)
    · exact (hgreatest hk).trans (le_max_right _ _)

/-- For `2^31` elements or more, a counter overflows. -/
theorem lengthOfLIS_eq_none {nums : List ℤ} (hn : 2^31 ≤ nums.length) :
    lengthOfLIS nums = none := by
  rw [lengthOfLIS, lisTable, forInt_eq_none (by omega) hn, Option.bind_none]

/-- The result is the greatest length of an increasing subsequence exactly for the vectors of fewer
than `2^31` elements. -/
theorem isLongest_iff (nums : List ℤ) : IsLongest nums ↔ nums.length < 2^31 := by
  constructor
  · rintro ⟨n, hrun, -⟩
    by_contra hcon
    rw [lengthOfLIS_eq_none (not_lt.mp hcon)] at hrun
    exact Option.some_ne_none _ hrun.symm
  · intro hn
    obtain ⟨dp, htable, hdp⟩ := lisTable_spec hn
    obtain ⟨res, hloop, n, rfl, hsound, hmax⟩ := lisMax_spec hn hdp
    refine ⟨n, ?_, ?_, ?_⟩
    · rw [lengthOfLIS, htable, Option.bind_some, hloop]
    · rcases hsound with rfl | ⟨j, -, hj⟩
      · exact ⟨[], List.nil_sublist _, List.Pairwise.nil, rfl⟩
      · exact IncreasesTo.sublist hj
    · rintro _ ⟨sub, hsub, hpair, rfl⟩
      by_cases hne : sub = []
      · rw [hne]
        exact Nat.zero_le n
      · obtain ⟨i, hi, hends⟩ := exists_increasesTo hne hsub hpair
        exact hmax i hi _ hends

/-- For `2^31` zeros, nothing is returned. -/
theorem not_isLongest_zeros : ¬ ∀ nums : List ℤ, IsLongest nums := by
  intro hall
  obtain ⟨n, hrun, -⟩ := hall (List.replicate (2^31) 0)
  rw [lengthOfLIS_eq_none (by rw [List.length_replicate])] at hrun
  exact Option.some_ne_none _ hrun.symm

end CxxPandora.Labuladong
