import Mathlib.Data.Nat.Fib.Basic
import Mathlib.Data.Int.Order.Basic
import Mathlib.Tactic.SplitIfs

/-!
# Fibonacci numbers

The four functions of `algorithms/labuladong/dp/dp_fib.cpp` over exact integers: plain recursion
(`fib1`), recursion with a memo (`fib2`), a table (`fib3`) and its last two entries (`fib4`). The
memo and the table of `N` entries lack the entry at index `N`, which both functions read, and the
loop of `fib4` stops one pass early: `agrees_iff_le_two` shows that the functions agree up to two
only. What is right is the way in which they compute: `fib2Helper_eq` for any memo with an entry at
the number's index, `fib3Table_eq` for the entries that the table has, `fib4_eq` for the last pass.
-/

namespace CxxPandora.Labuladong.Fib

/-- `fib1`, at most `fuel` calls deep. -/
def fib1 : ℕ → ℤ → Option ℤ
  | 0, _ => none
  | fuel + 1, N =>
    if N = 1 ∨ N = 2 then some 1
    else (fib1 fuel (N - 1)).bind fun a => (fib1 fuel (N - 2)).map fun b => a + b

/-- An entry of a vector; `none` out of its bounds. -/
def entry (v : List ℤ) (i : ℤ) : Option ℤ := if i < 0 then none else v[i.toNat]?

/-- A vector with one entry replaced; `none` out of its bounds. -/
def store (v : List ℤ) (i : ℤ) (x : ℤ) : Option (List ℤ) :=
  (entry v i).map fun _ => v.set i.toNat x

/-- `fib2Helper`, at most `fuel` calls deep, with the memo that it leaves. The language does not say
which operand of the sum is evaluated first. -/
def fib2Helper (leftFirst : Bool) : ℕ → List ℤ → ℤ → Option (ℤ × List ℤ)
  | 0, _, _ => none
  | fuel + 1, memo, n =>
    if n = 1 ∨ n = 2 then some (1, memo)
    else
      (entry memo n).bind fun x =>
        if x ≠ 0 then some (x, memo)
        else
          (fib2Helper leftFirst fuel memo (if leftFirst then n - 1 else n - 2)).bind fun r =>
            (fib2Helper leftFirst fuel r.2 (if leftFirst then n - 2 else n - 1)).bind fun q =>
              (store q.2 n (r.1 + q.1)).map fun memo => (r.1 + q.1, memo)

/-- `fib2`; a vector has no negative size. -/
def fib2 (leftFirst : Bool) (fuel : ℕ) (N : ℤ) : Option ℤ :=
  if N < 0 then none
  else (fib2Helper leftFirst fuel (List.replicate N.toNat 0) N).map Prod.fst

/-- The body of the loop of `fib3`. -/
def fib3Step (dp : List ℤ) (i : ℕ) : Option (List ℤ) :=
  (entry dp ((i : ℤ) - 1)).bind fun a => (entry dp ((i : ℤ) - 2)).bind fun b => store dp i (a + b)

/-- The table of `fib3`. -/
def fib3Table (N : ℤ) : Option (List ℤ) :=
  (store (List.replicate N.toNat 0) 2 1).bind fun dp => (store dp 1 1).bind fun dp =>
    (List.range' 3 (N.toNat - 3)).foldlM fib3Step dp

/-- `fib3`. -/
def fib3 (N : ℤ) : Option ℤ :=
  if N < 1 then some 0
  else if N = 1 ∨ N = 2 then some 1
  else (fib3Table N).bind fun dp => entry dp N

/-- The variables `prev` and `cur` of `fib4` after so many passes of its loop. -/
def fib4Loop : ℕ → ℤ × ℤ
  | 0 => (1, 1)
  | k + 1 => ((fib4Loop k).2, (fib4Loop k).1 + (fib4Loop k).2)

/-- `fib4`. -/
def fib4 (N : ℤ) : ℤ :=
  if N < 1 then 0
  else if N = 1 ∨ N = 2 then 1
  else (fib4Loop (N.toNat - 3)).2

/-- The four functions are defined and return the same value. -/
def Agrees (N : ℤ) : Prop :=
  ∃ v, (∃ n₀, ∀ fuel, n₀ ≤ fuel → fib1 fuel N = some v) ∧
    (∀ leftFirst, ∃ n₀, ∀ fuel, n₀ ≤ fuel → fib2 leftFirst fuel N = some v) ∧
      fib3 N = some v ∧ fib4 N = v

/-! ## The plain recursion -/

/-- The recursion of the Fibonacci numbers. -/
theorem fib_eq {n : ℕ} (hn : 2 ≤ n) : Nat.fib (n - 1) + Nat.fib (n - 2) = Nat.fib n := by
  obtain ⟨k, rfl⟩ := Nat.exists_eq_add_of_le hn
  rw [Nat.add_comm 2 k, Nat.fib_add_two, Nat.add_comm]
  rfl

/-- `fib1` returns the Fibonacci number. -/
theorem fib1_eq {n fuel : ℕ} (hn : 1 ≤ n) (hfuel : n ≤ fuel) :
    fib1 fuel n = some (Nat.fib n : ℤ) := by
  induction fuel using Nat.strong_induction_on generalizing n with
  | _ fuel ih =>
    obtain ⟨fuel, rfl⟩ := Nat.exists_eq_add_one.mpr (hn.trans hfuel)
    rw [fib1]
    split_ifs with hbase
    · obtain rfl | rfl : n = 1 ∨ n = 2 := by omega
      · rfl
      · rfl
    · have hfst := ih fuel fuel.lt_succ_self (n := n - 1) (by omega) (by omega)
      have hsnd := ih fuel fuel.lt_succ_self (n := n - 2) (by omega) (by omega)
      have hsum := fib_eq (n := n) (by omega)
      rw [show (n : ℤ) - 1 = (n - 1 : ℕ) by omega, show (n : ℤ) - 2 = (n - 2 : ℕ) by omega, hfst,
        hsnd, Option.bind_some, Option.map_some, ← hsum, Nat.cast_add]

/-! ## The memo -/

/-- An entry at an index that is a natural number. -/
@[simp] theorem entry_natCast (v : List ℤ) (i : ℕ) : entry v i = v[i]? :=
  if_neg (Int.natCast_nonneg i).not_gt

/-- A vector with an entry replaced that it has. -/
theorem store_natCast {v : List ℤ} {i : ℕ} (hi : i < v.length) (x : ℤ) :
    store v i x = some (v.set i x) := by
  rw [store, entry_natCast, List.getElem?_eq_getElem hi]
  rfl

/-- Every entry is zero or the Fibonacci number of its index. -/
def Memo (memo : List ℤ) : Prop :=
  ∀ (i : ℕ) (x : ℤ), memo[i]? = some x → x = 0 ∨ x = Nat.fib i

/-- A memo stays one when the number of an index is stored there. -/
theorem Memo.set {memo : List ℤ} (h : Memo memo) (n : ℕ) : Memo (memo.set n (Nat.fib n)) := by
  intro i x hx
  rw [List.getElem?_set] at hx
  split_ifs at hx with hi hn
  · rw [← hi]
    exact Or.inr (Option.some.inj hx).symm
  · exact h i x hx

/-- `fib2Helper` returns the Fibonacci number, and leaves a memo of the same size, when the memo has
an entry at the index of the number. -/
theorem fib2Helper_eq (leftFirst : Bool) {n fuel : ℕ} {memo : List ℤ} (hn : 1 ≤ n)
    (hfuel : n ≤ fuel) (hlt : n ≤ 2 ∨ n < memo.length) (hmemo : Memo memo) :
    ∃ memo', fib2Helper leftFirst fuel memo n = some ((Nat.fib n : ℤ), memo') ∧
      memo'.length = memo.length ∧ Memo memo' := by
  induction fuel generalizing n memo with
  | zero => omega
  | succ fuel ih =>
    rw [fib2Helper]
    by_cases hbase : (n : ℤ) = 1 ∨ (n : ℤ) = 2
    · rw [if_pos hbase]
      obtain rfl | rfl : n = 1 ∨ n = 2 := by omega
      · exact ⟨memo, rfl, rfl, hmemo⟩
      · exact ⟨memo, rfl, rfl, hmemo⟩
    · have hlt : n < memo.length := by omega
      have hentry : memo[n]? = some memo[n] := List.getElem?_eq_getElem hlt
      rw [if_neg hbase, entry_natCast, hentry, Option.bind_some]
      by_cases hzero : memo[n] ≠ 0
      · rw [if_pos hzero]
        rcases hmemo n _ hentry with h0 | hfib
        · exact absurd h0 hzero
        · exact ⟨memo, by rw [hfib], rfl, hmemo⟩
      -- The two calls, whichever comes first.
      · have hcalls : ∀ p q : ℕ, 1 ≤ p → p < n → 1 ≤ q → q < n → Nat.fib p + Nat.fib q = Nat.fib n →
            ∃ memo', ((fib2Helper leftFirst fuel memo p).bind fun r =>
              (fib2Helper leftFirst fuel r.2 q).bind fun s =>
                (store s.2 n (r.1 + s.1)).map fun memo => (r.1 + s.1, memo)) =
                  some ((Nat.fib n : ℤ), memo') ∧ memo'.length = memo.length ∧ Memo memo' := by
          intro p q hp hpn hq hqn hsum
          obtain ⟨memo₁, h₁, hlen₁, hmemo₁⟩ := ih (n := p) hp (by omega) (by omega) hmemo
          obtain ⟨memo₂, h₂, hlen₂, hmemo₂⟩ :=
            ih (n := q) hq (by omega) (by rw [hlen₁]; omega) hmemo₁
          refine ⟨memo₂.set n (Nat.fib n), ?_, ?_, hmemo₂.set n⟩
          · have hlast : n < memo₂.length := by rw [hlen₂, hlen₁]; exact hlt
            rw [h₁, Option.bind_some, h₂, Option.bind_some, store_natCast hlast, Option.map_some,
              ← Nat.cast_add, hsum]
          · rw [List.length_set, hlen₂, hlen₁]
        have hsum := fib_eq (n := n) (by omega)
        rw [if_neg hzero, show (n : ℤ) - 1 = (n - 1 : ℕ) by omega,
          show (n : ℤ) - 2 = (n - 2 : ℕ) by omega]
        cases leftFirst with
        | true => exact hcalls (n - 1) (n - 2) (by omega) (by omega) (by omega) (by omega) hsum
        | false =>
          exact hcalls (n - 2) (n - 1) (by omega) (by omega) (by omega) (by omega)
            (by rw [Nat.add_comm, hsum])

/-- From three on, `fib2` reads the memo beyond its end. -/
theorem fib2_eq_none (leftFirst : Bool) (fuel : ℕ) {n : ℕ} (hn : 3 ≤ n) :
    fib2 leftFirst fuel n = none := by
  rw [fib2, if_neg (by omega), Int.toNat_natCast]
  cases fuel with
  | zero => rfl
  | succ fuel =>
    have hout : (List.replicate n (0 : ℤ))[n]? = none :=
      List.getElem?_eq_none (List.length_replicate (n := n)).le
    rw [fib2Helper, if_neg (by omega), entry_natCast, hout]
    rfl

/-! ## The table -/

/-- The entries below an index, from one on, are the Fibonacci numbers. -/
def Filled (dp : List ℤ) (i : ℕ) : Prop := ∀ j, 1 ≤ j → j < i → dp[j]? = some (Nat.fib j : ℤ)

/-- One pass of the loop fills an entry. -/
theorem fib3Step_eq {dp : List ℤ} {i : ℕ} (hi : 3 ≤ i) (hlt : i < dp.length) (h : Filled dp i) :
    ∃ dp', fib3Step dp i = some dp' ∧ dp'.length = dp.length ∧ Filled dp' (i + 1) := by
  have hsum := fib_eq (n := i) (by omega)
  refine ⟨dp.set i (Nat.fib i), ?_, List.length_set, fun j hj hji => ?_⟩
  · rw [fib3Step, show (i : ℤ) - 1 = (i - 1 : ℕ) by omega, show (i : ℤ) - 2 = (i - 2 : ℕ) by omega,
      entry_natCast, entry_natCast, h (i - 1) (by omega) (by omega),
      h (i - 2) (by omega) (by omega), Option.bind_some, Option.bind_some, store_natCast hlt,
      ← Nat.cast_add, hsum]
  · rcases (Nat.lt_succ_iff.mp hji).lt_or_eq with hji | rfl
    · rw [List.getElem?_set_ne hji.ne', h j hj hji]
    · rw [List.getElem?_set_self hlt]

/-- The loop fills so many entries. -/
theorem foldlM_fib3Step {k i : ℕ} {dp : List ℤ} (hi : 3 ≤ i) (hlt : i + k ≤ dp.length)
    (h : Filled dp i) :
    ∃ dp', (List.range' i k).foldlM fib3Step dp = some dp' ∧ dp'.length = dp.length ∧
      Filled dp' (i + k) := by
  induction k generalizing i dp with
  | zero => exact ⟨dp, rfl, rfl, h⟩
  | succ k ih =>
    obtain ⟨dp₁, h₁, hlen₁, hfill₁⟩ := fib3Step_eq hi (by omega) h
    obtain ⟨dp₂, h₂, hlen₂, hfill₂⟩ := ih (Nat.le_succ_of_le hi) (by omega) hfill₁
    refine ⟨dp₂, ?_, hlen₂.trans hlen₁, ?_⟩
    · rw [List.range'_succ, List.foldlM_cons, h₁]
      exact h₂
    · rwa [Nat.succ_eq_add_one, Nat.add_right_comm] at hfill₂

/-- The table has as many entries as the number says, and those from one on are right. -/
theorem fib3Table_eq {n : ℕ} (hn : 3 ≤ n) :
    ∃ dp, fib3Table n = some dp ∧ dp.length = n ∧ Filled dp n := by
  have hlen : (List.replicate n (0 : ℤ)).length = n := List.length_replicate
  have htwo : store (List.replicate n 0) 2 1 = some ((List.replicate n 0).set 2 1) :=
    store_natCast (i := 2) (by omega) 1
  have hone : store ((List.replicate n 0).set 2 1) 1 1 =
      some (((List.replicate n 0).set 2 1).set 1 1) :=
    store_natCast (i := 1) (by rw [List.length_set]; omega) 1
  have hfill : Filled (((List.replicate n 0).set 2 1).set 1 1) 3 := by
    intro j hj hj3
    obtain rfl | rfl : j = 1 ∨ j = 2 := by omega
    · rw [List.getElem?_set_self (by rw [List.length_set]; omega)]
      rfl
    · rw [List.getElem?_set_ne (by decide), List.getElem?_set_self (by omega)]
      rfl
  obtain ⟨dp, hdp, hlen', hfill'⟩ := foldlM_fib3Step (k := n - 3) (le_refl 3)
    (by rw [List.length_set, List.length_set]; omega) hfill
  refine ⟨dp, ?_, ?_, ?_⟩
  · rw [fib3Table, Int.toNat_natCast, htwo, Option.bind_some, hone, Option.bind_some, hdp]
  · rw [hlen', List.length_set, List.length_set, hlen]
  · rwa [show 3 + (n - 3) = n by omega] at hfill'

/-- From three on, `fib3` reads the table beyond its end. -/
theorem fib3_eq_none {n : ℕ} (hn : 3 ≤ n) : fib3 n = none := by
  obtain ⟨dp, hdp, hlen, -⟩ := fib3Table_eq hn
  rw [fib3, if_neg (by omega), if_neg (by omega), hdp, Option.bind_some, entry_natCast,
    List.getElem?_eq_none hlen.le]

/-! ## The two last entries -/

/-- The variables hold two Fibonacci numbers in a row. -/
theorem fib4Loop_eq (k : ℕ) : fib4Loop k = ((Nat.fib (k + 1) : ℤ), (Nat.fib (k + 2) : ℤ)) := by
  induction k with
  | zero => rfl
  | succ k ih => rw [fib4Loop, ih, ← Nat.cast_add, Nat.fib_add_two (n := k + 1)]

/-- From two on, `fib4` returns the number before. -/
theorem fib4_eq {n : ℕ} (hn : 2 ≤ n) : fib4 n = (Nat.fib (n - 1) : ℤ) := by
  rw [fib4, if_neg (by omega)]
  split_ifs with hbase
  · obtain rfl : n = 2 := by omega
    rfl
  · rw [fib4Loop_eq, Int.toNat_natCast, show n - 3 + 2 = n - 1 by omega]

/-- What `fib4` returns is the Fibonacci number up to two only. -/
theorem fib4_eq_fib_iff {n : ℕ} (hn : 1 ≤ n) : fib4 n = (Nat.fib n : ℤ) ↔ n ≤ 2 := by
  constructor
  · intro h
    by_contra hlt
    rw [fib4_eq (by omega)] at h
    have hstep := Nat.fib_lt_fib_succ (n := n - 1) (by omega)
    rw [Nat.sub_add_cancel hn] at hstep
    omega
  · intro hle
    obtain rfl | rfl : n = 1 ∨ n = 2 := by omega
    · rfl
    · rfl

/-! ## The four functions -/

/-- The four functions agree up to two only. -/
theorem agrees_iff_le_two {N : ℤ} (hN : 1 ≤ N) : Agrees N ↔ N ≤ 2 := by
  obtain ⟨n, rfl⟩ := Int.eq_ofNat_of_zero_le (by omega : 0 ≤ N)
  constructor
  · rintro ⟨v, -, -, h3, -⟩
    by_contra hlt
    rw [fib3_eq_none (by omega)] at h3
    exact Option.some_ne_none v h3.symm
  · intro hle
    refine ⟨Nat.fib n, ⟨n, fun fuel => fib1_eq (by omega)⟩,
      fun leftFirst => ⟨n, fun fuel hfuel => ?_⟩, ?_⟩
    · have hmemo : Memo (List.replicate n 0) := by
        intro i x hx
        exact Or.inl (List.eq_of_mem_replicate (List.mem_of_getElem? hx))
      obtain ⟨memo, hrun, -, -⟩ :=
        fib2Helper_eq leftFirst (by omega) hfuel (Or.inl (by omega)) hmemo
      rw [fib2, if_neg (by omega), Int.toNat_natCast, hrun]
      rfl
    · obtain rfl | rfl : n = 1 ∨ n = 2 := by omega
      · exact ⟨rfl, rfl⟩
      · exact ⟨rfl, rfl⟩

/-- The four functions at two. -/
theorem agrees_iff_two : 1 ≤ (2 : ℤ) ∧ (Agrees 2 ↔ (2 : ℤ) ≤ 2) :=
  ⟨by decide, agrees_iff_le_two (by decide)⟩

/-- At three, the memo and the table are read beyond their ends, and `fib4` returns one. -/
theorem not_agrees_three : ¬ Agrees 3 := by
  rintro ⟨v, -, -, h3, -⟩
  have hnone : fib3 3 = none := fib3_eq_none (le_refl 3)
  rw [hnone] at h3
  exact Option.some_ne_none v h3.symm

end CxxPandora.Labuladong.Fib
