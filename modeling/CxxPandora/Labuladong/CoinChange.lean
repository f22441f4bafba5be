import CxxPandora.Lib.Loops
import Mathlib.Algebra.BigOperators.Group.Multiset.Basic
import Mathlib.Algebra.Order.Ring.Int
import Mathlib.Data.List.Basic
import Mathlib.Order.Bounds.Basic

/-!
# Coin change

`coinChange1Helper` and `coinChange3` of `algorithms/labuladong/dp/dp_coin_change.cpp`: the fewest
coins of the given denominations that make an amount, by exhaustive recursion and by a table. The
table's guard `i - coin < 0` is in `size_t` arithmetic, where nothing is below zero, so that a
denomination above `i` indexes the table out of its bounds. `coinChange3_eq_none` shows that any
denomination above one is reached so, and `agrees_iff` when the two algorithms agree.

The recursion counts the denominations in `int`, and is undefined for `2^31` of them or more
(`coinChange1Helper_eq_none`). Otherwise it returns the fewest coins, except that it takes `INT_MAX`
of them for none: `optimal_iff` shows that this happens for the amount `INT_MAX` and coins of one
only.
-/

namespace CxxPandora.Labuladong

open Lib

/-- A denomination: a positive `int`. -/
structure Coin where
  /-- Its value. -/
  val : ℤ
  /-- It is positive. -/
  pos : 0 < val
  /-- It is an `int`. -/
  le : val ≤ intMax

/-- `coinChange1Helper`: -1 when the amount cannot be made; `none` when it is undefined. -/
def coinChange1Helper (coins : List Coin) (amount : ℤ) : Option ℤ :=
  if amount < 0 then some (-1)
  else if amount = 0 then some 0
  else
    (forInt coins.length (fun i res => coins[i]?.bind fun coin =>
      (checkInt (amount - coin.val)).bind fun _ =>
        (coinChange1Helper coins (amount - coin.val)).bind fun r =>
          if r = -1 then some res else (checkInt (r + 1)).map fun r' => min res r') 0 intMax).map
      fun res => if res = intMax then -1 else res
termination_by amount.toNat
decreasing_by
  have := coin.pos
  omega

/-- One pass of the inner loop of `coinChange3`, at index `i` of the table and for one coin. The
conversion of `coin` makes the difference a `size_t`. -/
def relax (i : ℕ) (dp : List ℤ) (coin : Coin) : Option (List ℤ) :=
  if sizeSub i coin.val.toNat < 0 then some dp
  else
    dp[i]?.bind fun current =>
      dp[sizeSub i coin.val.toNat]?.bind fun smaller =>
        (checkInt (smaller + 1)).map fun candidate => dp.set i (min current candidate)

/-- `coinChange3`; `none` when it is undefined. -/
def coinChange3 (coins : List Coin) (amount : ℤ) : Option ℤ :=
  (checkInt (amount + 1)).bind fun size =>
    if size ≤ 0 then none
    else
      let dp := (List.replicate size.toNat size).set 0 0
      ((List.range' 1 (dp.length - 1)).foldlM (fun dp i => coins.foldlM (relax i) dp) dp).bind
        fun dp => dp[amount.toNat]?.map fun last => if last = size then -1 else last

/-- The table stays in its bounds, and both algorithms return the same value. -/
def Agrees (coins : List Coin) (amount : ℤ) : Prop :=
  ∃ v, coinChange3 coins amount = some v ∧ coinChange1Helper coins amount = some v

/-! ## The loop over the denominations -/

/-- The body of the loop of `coinChange1Helper`. -/
def take (coins : List Coin) (amount res : ℤ) (coin : Coin) : Option ℤ :=
  (checkInt (amount - coin.val)).bind fun _ =>
    (coinChange1Helper coins (amount - coin.val)).bind fun r =>
      if r = -1 then some res else (checkInt (r + 1)).map fun r' => min res r'

/-- `coinChange1Helper` with its loop's body by name. -/
theorem coinChange1Helper_pos (coins : List Coin) {amount : ℤ} (hpos : 0 < amount) :
    coinChange1Helper coins amount =
      (forInt coins.length (fun i res => coins[i]?.bind (take coins amount res)) 0 intMax).map
        fun res => if res = intMax then -1 else res := by
  rw [coinChange1Helper, if_neg (by omega), if_neg (by omega)]
  rfl

/-- The recursion visits every denomination, when there are fewer than `2^31`. -/
theorem coinChange1Helper_eq {coins : List Coin} (hlen : coins.length < 2^31) {amount : ℤ}
    (hpos : 0 < amount) :
    coinChange1Helper coins amount = (coins.foldlM (take coins amount) intMax).map
      fun res => if res = intMax then -1 else res := by
  rw [coinChange1Helper_pos coins hpos, forInt_getElem? hlen]

/-- With `2^31` denominations or more, the counter of the loop overflows. -/
theorem coinChange1Helper_eq_none {coins : List Coin} (hlen : 2^31 ≤ coins.length) {amount : ℤ}
    (hpos : 0 < amount) : coinChange1Helper coins amount = none := by
  rw [coinChange1Helper_pos coins hpos, forInt_eq_none (by decide) hlen, Option.map_none]

/-- The amount zero takes no coin. -/
theorem coinChange1Helper_zero (coins : List Coin) : coinChange1Helper coins 0 = some 0 := by
  rw [coinChange1Helper, if_neg (lt_irrefl 0), if_pos rfl]

/-! ## A denomination above one -/

/-- The guard never holds. -/
theorem relax_eq (i : ℕ) (dp : List ℤ) (coin : Coin) :
    relax i dp coin = dp[i]?.bind fun current =>
      dp[sizeSub i coin.val.toNat]?.bind fun smaller =>
        (checkInt (smaller + 1)).map fun candidate => dp.set i (min current candidate) :=
  if_neg (Nat.not_lt_zero _)

/-- A pass keeps the size of the table. -/
theorem length_relax {i : ℕ} {dp dp' : List ℤ} {coin : Coin} (h : relax i dp coin = some dp') :
    dp'.length = dp.length := by
  rw [relax_eq] at h
  obtain ⟨current, -, h⟩ := Option.bind_eq_some_iff.mp h
  obtain ⟨smaller, -, h⟩ := Option.bind_eq_some_iff.mp h
  obtain ⟨candidate, -, rfl⟩ := Option.map_eq_some_iff.mp h
  rw [List.length_set]

/-- The difference of an index and a greater denomination is far out of the table's bounds. -/
theorem relax_eq_none {i : ℕ} {dp : List ℤ} {coin : Coin} (hlen : (dp.length : ℤ) ≤ intMax)
    (hi : i < coin.val.toNat) : relax i dp coin = none := by
  have hcoin := coin.le
  have hout : dp.length ≤ sizeSub i coin.val.toNat := by
    unfold intMax at hcoin hlen
    unfold sizeSub
    omega
  rw [relax_eq, List.getElem?_eq_none hout]
  cases dp[i]? <;> rfl

/-- A denomination above the index makes the inner loop undefined. -/
theorem foldlM_relax_eq_none {i : ℕ} {coins : List Coin} {coin : Coin} (hmem : coin ∈ coins)
    (hi : i < coin.val.toNat) {dp : List ℤ} (hlen : (dp.length : ℤ) ≤ intMax) :
    coins.foldlM (relax i) dp = none := by
  induction coins generalizing dp with
  | nil => exact absurd hmem List.not_mem_nil
  | cons c coins ih =>
    rw [List.foldlM_cons]
    rcases List.mem_cons.mp hmem with rfl | hmem
    · rw [relax_eq_none hlen hi]
      rfl
    · cases hc : relax i dp c with
      | none => rfl
      | some dp' => exact ih hmem (by rw [length_relax hc]; exact hlen)

/-- With a denomination above one, and an amount of one or more, the table is indexed out of its
bounds at index one already. -/
theorem coinChange3_eq_none {coins : List Coin} {coin : Coin} (hmem : coin ∈ coins)
    (hcoin : coin.val ≠ 1) {amount : ℤ} (hpos : 1 ≤ amount) (hle : amount + 1 ≤ intMax) :
    coinChange3 coins amount = none := by
  have hcheck : checkInt (amount + 1) = some (amount + 1) :=
    checkInt_of_nonneg (by omega) hle
  have hval := coin.pos
  have hlen : ((List.replicate (amount + 1).toNat (amount + 1)).set 0 0).length =
      (amount + 1).toNat := by
    rw [List.length_set, List.length_replicate]
  obtain ⟨k, hk⟩ : ∃ k, (amount + 1).toNat - 1 = k + 1 := ⟨(amount + 1).toNat - 2, by omega⟩
  rw [coinChange3, hcheck, Option.bind_some, if_neg (by omega)]
  simp only [hlen, hk, List.range'_succ, List.foldlM_cons]
  rw [foldlM_relax_eq_none hmem (by omega) (by rw [hlen]; omega)]
  rfl

/-! ## Denominations of one -/

/-- A loop over coins each of which takes the state to one that it then stays in. -/
theorem foldlM_settles {β : Type} {f : β → Coin → Option β} {coins : List Coin} {b : β} (b' : β)
    (hne : coins ≠ []) (hfirst : ∀ coin ∈ coins, f b coin = some b')
    (hagain : ∀ coin ∈ coins, f b' coin = some b') : coins.foldlM f b = some b' := by
  have hstays : ∀ cs : List Coin, (∀ coin ∈ cs, f b' coin = some b') →
      cs.foldlM f b' = some b' := by
    intro cs hcs
    induction cs with
    | nil => rfl
    | cons c cs ih =>
      rw [List.foldlM_cons, hcs c List.mem_cons_self]
      exact ih fun coin hcoin => hcs coin (List.mem_cons_of_mem _ hcoin)
  cases coins with
  | nil => exact absurd rfl hne
  | cons c coins =>
    rw [List.foldlM_cons, hfirst c List.mem_cons_self]
    exact hstays coins fun coin hcoin => hagain coin (List.mem_cons_of_mem _ hcoin)

/-- With coins of one, the recursion counts the amount. -/
theorem coinChange1Helper_ones {coins : List Coin} (hne : coins ≠ [])
    (hlen : coins.length < 2^31) (hones : ∀ coin ∈ coins, coin.val = 1) (n : ℕ)
    (hn : (n : ℤ) + 1 ≤ intMax) : coinChange1Helper coins n = some (n : ℤ) := by
  induction n with
  | zero => exact coinChange1Helper_zero coins
  | succ n ih =>
    have hsub : ((n + 1 : ℕ) : ℤ) - 1 = n := by omega
    have hcheck : checkInt (n : ℤ) = some (n : ℤ) := checkInt_of_nonneg (by omega) (by omega)
    have hnext : checkInt ((n : ℤ) + 1) = some ((n : ℤ) + 1) :=
      checkInt_of_nonneg (by omega) (by omega)
    have hbody : ∀ res : ℤ, ∀ coin ∈ coins,
        take coins ((n + 1 : ℕ) : ℤ) res coin = some (min res ((n : ℤ) + 1)) := by
      intro res coin hcoin
      rw [take, hones coin hcoin, hsub, hcheck, Option.bind_some, ih (by omega), Option.bind_some,
        if_neg (by omega), hnext, Option.map_some]
    have hle : (n : ℤ) + 1 ≤ intMax := by omega
    have hfirst : min intMax ((n : ℤ) + 1) = n + 1 := min_eq_right hle
    rw [coinChange1Helper_eq hlen (by omega),
      foldlM_settles ((n : ℤ) + 1) hne
        (fun coin hcoin => (hbody intMax coin hcoin).trans (congrArg some hfirst))
        (fun coin hcoin => (hbody _ coin hcoin).trans (congrArg some (min_self _))),
      Option.map_some, if_neg (by omega)]
    push_cast
    rfl

/-- The table for an amount `n` once the indices up to `i` have their final values. -/
def table (n i : ℕ) : List ℤ := (List.range (n + 1)).map fun j => if j ≤ i then (j : ℤ) else n + 1

/-- An entry of the table. -/
theorem getElem?_table {n j : ℕ} (i : ℕ) (hj : j ≤ n) :
    (table n i)[j]? = some (if j ≤ i then (j : ℤ) else n + 1) := by
  rw [table, List.getElem?_map, List.getElem?_range (by omega), Option.map_some]

/-- Setting the next entry. -/
theorem set_table {n i k : ℕ} (hk : k = i ∨ k + 1 = i) :
    (table n k).set i (i : ℤ) = table n i := by
  apply List.ext_getElem (by simp [table])
  intro j hj hj'
  rw [List.getElem_set]
  simp only [table, List.getElem_map, List.getElem_range]
  split_ifs <;> omega

/-- A pass at the next index with a coin of one. -/
theorem relax_table {n i k : ℕ} {coin : Coin} (hone : coin.val = 1) (hpos : 1 ≤ i) (hi : i ≤ n)
    (hn : (n : ℤ) + 1 ≤ intMax) (hk : k = i ∨ k + 1 = i) :
    relax i (table n k) coin = some (table n i) := by
  have hint : intMax < 2^63 := by unfold intMax; omega
  have hindex : sizeSub i coin.val.toNat = i - 1 := by
    rw [hone]
    exact sizeSub_eq hpos (by omega)
  have hcheck : checkInt (((i - 1 : ℕ) : ℤ) + 1) = some (i : ℤ) := by
    rw [show ((i - 1 : ℕ) : ℤ) + 1 = i by omega]
    exact checkInt_of_nonneg (by omega) (by omega)
  have hmin : min (if i ≤ k then (i : ℤ) else n + 1) i = i := by split_ifs <;> omega
  rw [relax_eq, hindex, getElem?_table k hi, getElem?_table k (show i - 1 ≤ n by omega),
    Option.bind_some, Option.bind_some, if_pos (show i - 1 ≤ k by omega), hcheck, Option.map_some,
    hmin, set_table hk]

/-- The outer loop with coins of one. -/
theorem foldlM_table {coins : List Coin} (hne : coins ≠ []) (hones : ∀ coin ∈ coins, coin.val = 1)
    {n : ℕ} (hn : (n : ℤ) + 1 ≤ intMax) {k : ℕ} (hk : k ≤ n) :
    (List.range' 1 k).foldlM (fun dp i => coins.foldlM (relax i) dp) (table n 0) =
      some (table n k) := by
  induction k with
  | zero => rfl
  | succ k ih =>
    have hinner : coins.foldlM (relax (k + 1)) (table n k) = some (table n (k + 1)) :=
      foldlM_settles _ hne
        (fun coin hcoin => relax_table (hones coin hcoin) (by omega) (by omega) hn (by omega))
        (fun coin hcoin => relax_table (hones coin hcoin) (by omega) (by omega) hn (by omega))
    rw [List.range'_1_concat, Nat.add_comm 1 k, List.foldlM_append, ih (by omega)]
    simp [hinner]

/-- The table starts with zero at index zero. -/
theorem set_replicate_eq_table (n : ℕ) :
    (List.replicate (n + 1) ((n : ℤ) + 1)).set 0 0 = table n 0 := by
  apply List.ext_getElem (by simp [table])
  intro j hj hj'
  rw [List.getElem_set, List.getElem_replicate]
  simp only [table, List.getElem_map, List.getElem_range]
  split_ifs <;> omega

/-- What `coinChange3` returns for a table that its loops fill. -/
theorem coinChange3_eq {coins : List Coin} {n : ℕ} (hn : (n : ℤ) + 1 ≤ intMax) {dp : List ℤ}
    (hloop : (List.range' 1 n).foldlM (fun dp i => coins.foldlM (relax i) dp) (table n 0) =
      some dp) :
    coinChange3 coins n = dp[n]?.map fun last => if last = (n : ℤ) + 1 then -1 else last := by
  have hcheck : checkInt ((n : ℤ) + 1) = some ((n : ℤ) + 1) :=
    checkInt_of_nonneg (by omega) hn
  have hsize : ((n : ℤ) + 1).toNat = n + 1 := by omega
  have hlen : (table n 0).length - 1 = n := by simp [table]
  rw [coinChange3, hcheck, Option.bind_some, if_neg (by omega)]
  simp only [hsize, set_replicate_eq_table, hlen, hloop, Option.bind_some, Int.toNat_natCast]

/-- With no coin, or coins of one, the two algorithms agree. -/
theorem agrees_of_ones {coins : List Coin} (hlen : coins.length < 2^31)
    (hones : ∀ coin ∈ coins, coin.val = 1) (n : ℕ) (hn : (n : ℤ) + 1 ≤ intMax) :
    Agrees coins n := by
  by_cases hne : coins = []
  · -- No coin: the table keeps its first values, and the recursion finds nothing.
    have hloop : (List.range' 1 n).foldlM (fun dp i => coins.foldlM (relax i) dp) (table n 0) =
        some (table n 0) := by
      rw [hne]
      generalize List.range' 1 n = is
      induction is with
      | nil => rfl
      | cons i is ih => exact ih
    have htable := coinChange3_eq hn hloop
    rw [getElem?_table 0 le_rfl, Option.map_some] at htable
    rcases Nat.eq_zero_or_pos n with h0 | hpos
    · rw [h0] at htable ⊢
      exact ⟨0, htable, coinChange1Helper_zero coins⟩
    · rw [if_neg (show ¬ n ≤ 0 by omega), if_pos rfl] at htable
      refine ⟨-1, htable, ?_⟩
      rw [coinChange1Helper_eq hlen (by omega), hne]
      rfl
  · have htable := coinChange3_eq hn (foldlM_table hne hones hn le_rfl)
    rw [getElem?_table n le_rfl, Option.map_some, if_pos le_rfl, if_neg (by omega)] at htable
    exact ⟨n, htable, coinChange1Helper_ones hne hlen hones n hn⟩

/-- For an amount below `2^31 - 1`, the table stays in its bounds and agrees with the recursion
exactly when the amount is zero, or there is no denomination but one and it is listed fewer than
`2^31` times. -/
theorem agrees_iff (coins : List Coin) (amount : ℤ) (h0 : 0 ≤ amount) (hlt : amount < 2^31 - 1) :
    Agrees coins amount ↔
      amount = 0 ∨ coins.length < 2^31 ∧ ∀ coin ∈ coins, coin.val = 1 := by
  have hle : amount + 1 ≤ intMax := by unfold intMax; omega
  obtain ⟨n, rfl⟩ := Int.eq_ofNat_of_zero_le h0
  constructor
  · rintro ⟨v, hv, hv'⟩
    by_cases hzero : (n : ℤ) = 0
    · exact Or.inl hzero
    · refine Or.inr ⟨?_, fun coin hcoin => ?_⟩
      · by_contra hlen
        rw [coinChange1Helper_eq_none (not_lt.mp hlen) (by omega)] at hv'
        exact Option.some_ne_none v hv'.symm
      · by_contra hval
        rw [coinChange3_eq_none hcoin hval (by omega) hle] at hv
        exact Option.some_ne_none v hv.symm
  · rintro (hzero | ⟨hlen, hones⟩)
    · -- The loops of both do nothing.
      obtain rfl : n = 0 := by omega
      exact ⟨0, coinChange3_eq hle rfl, coinChange1Helper_zero coins⟩
    · exact agrees_of_ones hlen hones n hle

/-- `agrees_iff` for coins of one and the amount three. -/
theorem agrees_ones : Agrees [⟨1, by decide, by decide⟩] 3 :=
  (agrees_iff [⟨1, by decide, by decide⟩] 3 (by decide) (by decide)).mpr
    (Or.inr ⟨by decide, by simp⟩)

/-- For the denomination two and the amount two, the table is indexed out of its bounds. -/
theorem not_agrees_two :
    ¬ ∀ (coins : List Coin) (amount : ℤ), 0 ≤ amount → amount < 2^31 - 1 → Agrees coins amount := by
  intro hall
  obtain ⟨v, hv, -⟩ := hall [⟨2, by decide, by decide⟩] 2 (by decide) (by decide)
  have hnone : coinChange3 [⟨2, by decide, by decide⟩] 2 = none := by decide
  rw [hnone] at hv
  exact absurd hv (by simp)

/-! ## The recursion is optimal -/

/-- So many coins, of the given denominations and with repetition, make the amount. -/
def Makes (coins : List Coin) (amount : ℤ) (n : ℕ) : Prop :=
  ∃ picked : Multiset ℤ,
    (∀ z ∈ picked, z ∈ coins.map Coin.val) ∧ picked.card = n ∧ picked.sum = amount

/-- No coin makes nothing. -/
theorem makes_zero (coins : List Coin) : Makes coins 0 0 :=
  ⟨0, fun _ hz => absurd hz (Multiset.notMem_zero _), Multiset.card_zero, Multiset.sum_zero⟩

/-- One coin more. -/
theorem Makes.succ {coins : List Coin} {coin : Coin} (hcoin : coin ∈ coins) {amount : ℤ} {n : ℕ}
    (h : Makes coins (amount - coin.val) n) : Makes coins amount (n + 1) := by
  obtain ⟨picked, hpicked, rfl, hsum⟩ := h
  refine ⟨coin.val ::ₘ picked, fun z hz => ?_, Multiset.card_cons _ _, ?_⟩
  · rcases Multiset.mem_cons.mp hz with rfl | hz
    · exact List.mem_map_of_mem hcoin
    · exact hpicked z hz
  · rw [Multiset.sum_cons, hsum]
    omega

/-- One coin less. -/
theorem Makes.pred {coins : List Coin} {amount : ℤ} {n : ℕ} (h : Makes coins amount (n + 1)) :
    ∃ coin ∈ coins, Makes coins (amount - coin.val) n := by
  obtain ⟨picked, hpicked, hcard, hsum⟩ := h
  obtain ⟨z, rest, rfl, hrest⟩ := Multiset.card_eq_succ_iff.mp hcard
  obtain ⟨coin, hcoin, rfl⟩ := List.mem_map.mp (hpicked z (Multiset.mem_cons_self z rest))
  refine ⟨coin, hcoin, rest, fun z hz => hpicked z (Multiset.mem_cons_of_mem hz), hrest, ?_⟩
  rw [Multiset.sum_cons] at hsum
  omega

/-- The amount is at least the number of coins. -/
theorem Makes.le {coins : List Coin} {amount : ℤ} {n : ℕ} (h : Makes coins amount n) :
    (n : ℤ) ≤ amount := by
  induction n generalizing amount with
  | zero =>
    obtain ⟨picked, -, hcard, hsum⟩ := h
    rw [Multiset.card_eq_zero.mp hcard, Multiset.sum_zero] at hsum
    exact hsum.le
  | succ n ih =>
    obtain ⟨coin, -, hrest⟩ := h.pred
    have hle := ih hrest
    have hpos := coin.pos
    omega

/-- What the recursion returns for an amount: the least number of coins, or -1 if none below
`INT_MAX` makes it. -/
def Fewest (coins : List Coin) (amount r : ℤ) : Prop :=
  (∃ n : ℕ, r = n ∧ (n : ℤ) < intMax ∧ IsLeast {n | Makes coins amount n} n) ∨
    r = -1 ∧ ∀ n, Makes coins amount n → intMax ≤ n

/-- One pass of the loop, when the recursive call returns what it should. -/
theorem take_spec {coins : List Coin} {coin : Coin} {amount res r : ℤ} (hamount : 0 < amount)
    (hmax : amount ≤ intMax) (hres : res ≤ intMax)
    (hrec : coinChange1Helper coins (amount - coin.val) = some r)
    (hr : Fewest coins (amount - coin.val) r) :
    ∃ res', take coins amount res coin = some res' ∧ res' ≤ res ∧
      (res' = res ∨ ∃ n : ℕ, res' = n + 1 ∧ Makes coins (amount - coin.val) n) ∧
      ∀ n, Makes coins (amount - coin.val) n → res' ≤ n + 1 := by
  have hcoin := coin.pos
  have hle := coin.le
  have hcheck : checkInt (amount - coin.val) = some (amount - coin.val) :=
    checkInt_eq (by unfold intMax at hle; omega) (by unfold intMax at hmax; omega)
  rw [take, hcheck, Option.bind_some, hrec, Option.bind_some]
  rcases hr with ⟨n, rfl, hlt, hleast⟩ | ⟨rfl, hnone⟩
  · have hnext : checkInt ((n : ℤ) + 1) = some ((n : ℤ) + 1) :=
      checkInt_of_nonneg (by omega) (by omega)
    rw [if_neg (by omega), hnext, Option.map_some]
    refine ⟨min res (n + 1), rfl, min_le_left _ _, ?_, fun n' hn' => ?_⟩
    · rcases min_choice res ((n : ℤ) + 1) with h | h
      · exact Or.inl h
      · exact Or.inr ⟨n, h, hleast.1⟩
    · have hn := hleast.2 hn'
      exact (min_le_right _ _).trans (by omega)
  · rw [if_pos rfl]
    refine ⟨res, rfl, le_rfl, Or.inl rfl, fun n' hn' => ?_⟩
    have hn := hnone n' hn'
    omega

/-- The loop over some of the coins. -/
theorem foldlM_take {coins cs : List Coin} {amount res : ℤ} (hamount : 0 < amount)
    (hmax : amount ≤ intMax) (hres : res ≤ intMax)
    (hrec : ∀ coin ∈ cs, ∃ r, coinChange1Helper coins (amount - coin.val) = some r ∧
      Fewest coins (amount - coin.val) r) :
    ∃ res', cs.foldlM (take coins amount) res = some res' ∧ res' ≤ res ∧
      (res' = res ∨ ∃ coin ∈ cs, ∃ n : ℕ, res' = n + 1 ∧ Makes coins (amount - coin.val) n) ∧
      ∀ coin ∈ cs, ∀ n, Makes coins (amount - coin.val) n → res' ≤ n + 1 := by
  induction cs generalizing res with
  | nil =>
    exact ⟨res, rfl, le_rfl, Or.inl rfl, fun coin hcoin => absurd hcoin List.not_mem_nil⟩
  | cons coin cs ih =>
    obtain ⟨r, hr, hfewest⟩ := hrec coin List.mem_cons_self
    obtain ⟨res₁, hfirst, hle₁, hsound₁, hbest₁⟩ := take_spec hamount hmax hres hr hfewest
    obtain ⟨res₂, hrest, hle₂, hsound₂, hbest₂⟩ :=
      ih (hle₁.trans hres) fun c hc => hrec c (List.mem_cons_of_mem _ hc)
    refine ⟨res₂, ?_, hle₂.trans hle₁, ?_, fun c hc n hn => ?_⟩
    · rw [List.foldlM_cons, hfirst]
      exact hrest
    · rcases hsound₂ with rfl | ⟨c, hc, hn⟩
      · exact hsound₁.imp_right fun hn => ⟨coin, List.mem_cons_self, hn⟩
      · exact Or.inr ⟨c, List.mem_cons_of_mem _ hc, hn⟩
    · rcases List.mem_cons.mp hc with rfl | hc
      · exact hle₂.trans (hbest₁ n hn)
      · exact hbest₂ c hc n hn

/-- The recursion returns the least number of coins, and takes `INT_MAX` of them for none. -/
theorem coinChange1Helper_spec {coins : List Coin} (hlen : coins.length < 2^31) {amount : ℤ}
    (hmax : amount ≤ intMax) :
    ∃ r, coinChange1Helper coins amount = some r ∧ Fewest coins amount r := by
  induction hm : amount.toNat using Nat.strong_induction_on generalizing amount with
  | _ m ih =>
    rcases lt_trichotomy amount 0 with hneg | rfl | hpos
    · refine ⟨-1, ?_, Or.inr ⟨rfl, fun n hn => ?_⟩⟩
      · rw [coinChange1Helper, if_pos hneg]
      · have hle := hn.le
        omega
    · exact ⟨0, coinChange1Helper_zero coins,
        Or.inl ⟨0, rfl, by decide, makes_zero coins, fun n _ => Nat.zero_le n⟩⟩
    · have hrec : ∀ coin ∈ coins, ∃ r, coinChange1Helper coins (amount - coin.val) = some r ∧
          Fewest coins (amount - coin.val) r := by
        intro coin _
        have hcoin := coin.pos
        exact ih _ (by omega) (by omega) rfl
      obtain ⟨res, hloop, hle, hsound, hbest⟩ := foldlM_take hpos hmax le_rfl hrec
      -- Every way to make the amount has a first coin.
      have hleast : ∀ n, Makes coins amount n → res ≤ n := by
        intro n hn
        cases n with
        | zero =>
          obtain ⟨picked, -, hcard, hsum⟩ := hn
          rw [Multiset.card_eq_zero.mp hcard, Multiset.sum_zero] at hsum
          omega
        | succ n =>
          obtain ⟨coin, hcoin, hrest⟩ := hn.pred
          rw [Int.natCast_add, Int.natCast_one]
          exact hbest coin hcoin n hrest
      rw [coinChange1Helper_eq hlen hpos, hloop, Option.map_some]
      by_cases hnone : res = intMax
      · rw [if_pos hnone]
        exact ⟨-1, rfl, Or.inr ⟨rfl, fun n hn => hnone ▸ hleast n hn⟩⟩
      · rw [if_neg hnone]
        rcases hsound with hsame | ⟨coin, hcoin, n, rfl, hn⟩
        · exact absurd hsame hnone
        · refine ⟨_, rfl, Or.inl ⟨n + 1, rfl, ?_, hn.succ hcoin, fun n' hn' => ?_⟩⟩
          · exact lt_of_le_of_ne hle hnone
          · have hle' := hleast n' hn'
            omega

/-- The recursion returns the fewest coins that make the amount, and -1 exactly if none do. -/
def IsOptimal (coins : List Coin) (amount : ℤ) : Prop :=
  ∃ v, coinChange1Helper coins amount = some v ∧
    ((∃ n : ℕ, v = n ∧ IsLeast {n | Makes coins amount n} n) ∨
      v = -1 ∧ ∀ n, ¬ Makes coins amount n)

/-- So many coins of one make as great an amount. -/
theorem makes_ones {coins : List Coin} {coin : Coin} (hcoin : coin ∈ coins) (hone : coin.val = 1)
    (n : ℕ) : Makes coins n n := by
  induction n with
  | zero => exact makes_zero coins
  | succ n ih =>
    refine Makes.succ hcoin ?_
    rwa [hone, Int.natCast_add, Int.natCast_one, Int.add_sub_cancel]

/-- When as many coins as the amount is great make it, all are of one. -/
theorem exists_one_of_makes {coins : List Coin} {amount : ℤ} {n : ℕ} (hpos : 0 < n)
    (hn : (n : ℤ) = amount) (h : Makes coins amount n) : ∃ coin ∈ coins, coin.val = 1 := by
  obtain ⟨k, rfl⟩ : ∃ k, n = k + 1 := ⟨n - 1, by omega⟩
  obtain ⟨coin, hcoin, hrest⟩ := h.pred
  have hle := hrest.le
  have hval := coin.pos
  exact ⟨coin, hcoin, by omega⟩

/-- A coin of one and one of more make the amount `INT_MAX` with fewer coins. -/
theorem makes_intMax {coins : List Coin} {one coin : Coin} (hone : one ∈ coins)
    (hval : one.val = 1) (hcoin : coin ∈ coins) (hmore : coin.val ≠ 1) :
    ∃ n : ℕ, (n : ℤ) < intMax ∧ Makes coins intMax n := by
  have hpos := coin.pos
  have hle := coin.le
  refine ⟨(intMax - coin.val).toNat + 1, by omega, Makes.succ hcoin ?_⟩
  have hones := makes_ones hone hval (intMax - coin.val).toNat
  rwa [Int.toNat_of_nonneg (by omega)] at hones

/-- Coins of one are as many as the amount that they make. -/
theorem Makes.eq_of_ones {coins : List Coin} (hones : ∀ coin ∈ coins, coin.val = 1) {amount : ℤ}
    {n : ℕ} (h : Makes coins amount n) : (n : ℤ) = amount := by
  induction n generalizing amount with
  | zero =>
    obtain ⟨picked, -, hcard, hsum⟩ := h
    rw [Multiset.card_eq_zero.mp hcard, Multiset.sum_zero] at hsum
    exact hsum
  | succ n ih =>
    obtain ⟨coin, hcoin, hrest⟩ := h.pred
    have hn := ih hrest
    have hval := hones coin hcoin
    omega

/-- For coins of one and the amount `INT_MAX`, the recursion returns -1. -/
theorem not_isOptimal_of_ones {coins : List Coin} (hne : coins ≠ [])
    (hlen : coins.length < 2^31) (hones : ∀ coin ∈ coins, coin.val = 1) :
    ¬ IsOptimal coins intMax := by
  obtain ⟨coin, hcoin⟩ := List.exists_mem_of_ne_nil coins hne
  have hmakes : Makes coins intMax intMax.toNat := makes_ones hcoin (hones coin hcoin) intMax.toNat
  rintro ⟨v, hv, hcase⟩
  obtain ⟨r, hr, hfewest⟩ := coinChange1Helper_spec hlen (le_refl intMax)
  obtain rfl : v = r := Option.some.inj (hv.symm.trans hr)
  rcases hfewest with ⟨n, -, hlt, hleast⟩ | ⟨rfl, -⟩
  · -- Every way to make it takes `INT_MAX` coins, which stands for none.
    exact hlt.ne (hleast.1.eq_of_ones hones)
  · rcases hcase with ⟨n, hn, -⟩ | ⟨-, hnone⟩
    · omega
    · exact hnone _ hmakes

/-- The amount zero is made of no coin. -/
theorem isOptimal_zero (coins : List Coin) : IsOptimal coins 0 :=
  ⟨0, coinChange1Helper_zero coins, Or.inl ⟨0, rfl, makes_zero coins, fun n _ => Nat.zero_le n⟩⟩

/-- With fewer than `2^31` denominations, the recursion is optimal unless the amount is `INT_MAX`
and all coins are of one. -/
theorem isOptimal_of_lt {coins : List Coin} (hlen : coins.length < 2^31) {amount : ℤ}
    (hmax : amount ≤ intMax)
    (h : amount < intMax ∨ coins = [] ∨ ∃ coin ∈ coins, coin.val ≠ 1) : IsOptimal coins amount := by
  obtain ⟨r, hr, hfewest⟩ := coinChange1Helper_spec hlen hmax
  refine ⟨r, hr, ?_⟩
  rcases hfewest with ⟨n, hn, -, hleast⟩ | ⟨rfl, hnone⟩
  · exact Or.inl ⟨n, hn, hleast⟩
  · -- A way to make the amount would take `INT_MAX` coins of one.
    refine Or.inr ⟨rfl, fun n hn => ?_⟩
    have hle := hn.le
    have hge := hnone n hn
    rcases h with hlt | rfl | ⟨coin, hcoin, hval⟩
    · omega
    · obtain ⟨one, hone, -⟩ := exists_one_of_makes (by unfold intMax at hge; omega) (by omega) hn
      exact absurd hone List.not_mem_nil
    · obtain ⟨one, hone, hval'⟩ :=
        exists_one_of_makes (by unfold intMax at hge; omega) (by omega) hn
      obtain rfl : amount = intMax := by omega
      obtain ⟨n', hlt, hn'⟩ := makes_intMax hone hval' hcoin hval
      exact absurd (hnone n' hn') (not_le.mpr hlt)

/-- The recursion is optimal exactly when the amount is zero, or there are fewer than `2^31`
denominations and it is not the amount `INT_MAX` with coins of one only. -/
theorem optimal_iff (coins : List Coin) (amount : ℤ) (h0 : 0 ≤ amount) (hmax : amount ≤ intMax) :
    IsOptimal coins amount ↔ amount = 0 ∨ coins.length < 2^31 ∧
      (amount < intMax ∨ coins = [] ∨ ∃ coin ∈ coins, coin.val ≠ 1) := by
  constructor
  · intro h
    by_contra hcon
    rw [not_or, not_and] at hcon
    obtain ⟨hzero, hcon⟩ := hcon
    have hlen : coins.length < 2^31 := by
      by_contra hlen
      obtain ⟨v, hv, -⟩ := h
      rw [coinChange1Helper_eq_none (not_lt.mp hlen) (by omega)] at hv
      exact Option.some_ne_none v hv.symm
    have hones := hcon hlen
    rw [not_or, not_or, not_lt] at hones
    obtain ⟨hge, hne, hmore⟩ := hones
    obtain rfl : amount = intMax := le_antisymm hmax hge
    refine not_isOptimal_of_ones hne hlen (fun coin hcoin => ?_) h
    by_contra hval
    exact hmore ⟨coin, hcoin, hval⟩
  · rintro (rfl | ⟨hlen, h⟩)
    · exact isOptimal_zero coins
    · exact isOptimal_of_lt hlen hmax h

/-- `optimal_iff` for the denominations one and two and the amount three. -/
theorem optimal_one_two : IsOptimal [⟨1, by decide, by decide⟩, ⟨2, by decide, by decide⟩] 3 :=
  (optimal_iff [⟨1, by decide, by decide⟩, ⟨2, by decide, by decide⟩] 3 (by decide)
    (by decide)).mpr (Or.inr ⟨by decide, Or.inl (by decide)⟩)

/-- With the denomination one, the amount `2^31 - 1` is not made. -/
theorem not_optimal_intMax :
    ¬ ∀ (coins : List Coin) (amount : ℤ), 0 ≤ amount → amount ≤ intMax →
      IsOptimal coins amount := by
  intro hall
  have hne : [(⟨1, by decide, by decide⟩ : Coin)] ≠ [] := List.cons_ne_nil _ _
  refine not_isOptimal_of_ones hne (by decide) (fun coin hcoin => ?_)
    (hall _ intMax (by decide) le_rfl)
  rw [List.mem_singleton.mp hcoin]

end CxxPandora.Labuladong
