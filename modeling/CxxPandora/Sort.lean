import CxxPandora.Lib.StableSort
import CxxPandora.Lib.Words
import Mathlib.Data.List.Induction

/-!
# Three sorting algorithms

`bubbleSort`, `insertionSort` and `selectSort` of `algorithms/sort`, over elements that are compared
by a key; with the identity as the key they are the source's functions on a vector of `int`. Every
access checks its index, and every increment of an `int` index that it does not overflow. The loops
of each algorithm are followed on a split of the array: what is done and what is not.
`sorts_correct` puts the three results together.
-/

namespace CxxPandora.Sort

open Lib

variable {α κ : Type*} [LinearOrder κ]

/-! ## The algorithms -/

/-- The increment of an `int` index. -/
def intSucc (i : ℕ) : Option ℕ := if (i : ℤ) + 1 ≤ intMax then some (i + 1) else none

/-- `array[i] = x`. -/
def store (array : List α) (i : ℕ) (x : α) : Option (List α) :=
  if i < array.length then some (array.set i x) else none

/-- The inner loop of `bubbleSort`, from index `j`: the array, and whether a pair was exchanged. -/
def bubblePass (key : α → κ) (bound j : ℕ) (array : List α) (isExchanged : Bool) :
    Option (List α × Bool) :=
  if j < bound then
    array[j]?.bind fun a => array[j + 1]?.bind fun b => (intSucc j).bind fun _ =>
      if key b < key a then bubblePass key bound (j + 1) ((array.set j b).set (j + 1) a) true
      else bubblePass key bound (j + 1) array isExchanged
  else some (array, isExchanged)
termination_by bound - j

/-- The outer loop of `bubbleSort`, from index `i`; it ends early when a pass exchanges nothing. -/
def bubbleLoop (key : α → κ) (size i : ℕ) (array : List α) : Option (List α) :=
  if i < size then
    (bubblePass key (sizeSub (sizeSub size i) 1) 0 array false).bind fun (array, isExchanged) =>
      if isExchanged then (intSucc i).bind fun _ => bubbleLoop key size (i + 1) array
      else some array
  else some array
termination_by size - i

/-- `bubbleSort`. -/
def bubbleSort (key : α → κ) (array : List α) : Option (List α) :=
  bubbleLoop key array.length 0 array

/-- The inner loop of `insertionSort`: elements above the item move up by one. The count is `j + 1`,
as `j` runs down to -1. -/
def insertionShift (key : α → κ) (itermToInsert : α) : ℕ → List α → Option (List α × ℕ)
  | 0, array => some (array, 0)
  | j + 1, array =>
    array[j]?.bind fun a =>
      if key itermToInsert < key a then
        (store array (j + 1) a).bind fun array => insertionShift key itermToInsert j array
      else some (array, j + 1)

/-- The outer loop of `insertionSort`, from index `i`. -/
def insertionLoop (key : α → κ) (size i : ℕ) (array : List α) : Option (List α) :=
  if i < size then
    array[i]?.bind fun itermToInsert =>
      (insertionShift key itermToInsert i array).bind fun (array, j) =>
        (store array j itermToInsert).bind fun array =>
          (intSucc i).bind fun _ => insertionLoop key size (i + 1) array
  else some array
termination_by size - i

/-- `insertionSort`. -/
def insertionSort (key : α → κ) (array : List α) : Option (List α) :=
  insertionLoop key array.length 1 array

/-- The inner loop of `selectSort`, from index `j`: the index of the least element seen so far. -/
def selectMin (key : α → κ) (size : ℕ) (array : List α) (j minIndex : ℕ) : Option ℕ :=
  if j < size then
    array[minIndex]?.bind fun a => array[j]?.bind fun b => (intSucc j).bind fun _ =>
      selectMin key size array (j + 1) (if key b < key a then j else minIndex)
  else some minIndex
termination_by size - j

/-- `std::swap(array[i], array[j])`. -/
def swapAt (array : List α) (i j : ℕ) : Option (List α) :=
  array[i]?.bind fun a => array[j]?.map fun b => (array.set i b).set j a

/-- The outer loop of `selectSort`, from index `i`. -/
def selectLoop (key : α → κ) (size i : ℕ) (array : List α) : Option (List α) :=
  if i < size then
    (intSucc i).bind fun _ =>
      (selectMin key size array (i + 1) i).bind fun minIndex =>
        (if minIndex ≠ i then swapAt array minIndex i else some array).bind fun array =>
          selectLoop key size (i + 1) array
  else some array
termination_by size - i

/-- `selectSort`. -/
def selectSort (key : α → κ) (array : List α) : Option (List α) :=
  selectLoop key array.length 0 array

/-- An index below the size of a vector of fewer than `2^31` elements can be incremented. -/
theorem intSucc_eq {i size : ℕ} (hi : i < size) (hsize : size < 2^31) :
    intSucc i = some (i + 1) := if_pos (by unfold intMax; omega)

/-- The element right after the first part of a list. -/
theorem getElem?_append_cons (pre : List α) (a : α) (post : List α) :
    (pre ++ a :: post)[pre.length]? = some a := by
  simp

/-! ## Bubble sort -/

/-- One pass over a list that starts with the element carried along: the greatest element seen goes
to the end. -/
def carry (key : α → κ) (x : α) : List α → List α
  | [] => [x]
  | y :: ys => if key y < key x then y :: carry key x ys else x :: carry key y ys

/-- A pass is a stable rearrangement. -/
theorem stable_carry (key : α → κ) (x : α) (ys : List α) :
    Stable key (x :: ys) (carry key x ys) := by
  induction ys generalizing x with
  | nil => exact Stable.refl key _
  | cons y ys ih =>
    unfold carry
    split_ifs with h
    · exact (Stable.swap h.ne' ys).trans ((ih x).cons y)
    · exact (ih y).cons x

/-- A pass ends with a greatest element. -/
theorem carry_eq_concat (key : α → κ) (x : α) (ys : List α) :
    ∃ front greatest, carry key x ys = front ++ [greatest] ∧
      ∀ a ∈ x :: ys, key a ≤ key greatest := by
  induction ys generalizing x with
  | nil => exact ⟨[], x, rfl, by simp⟩
  | cons y ys ih =>
    unfold carry
    split_ifs with h
    · obtain ⟨front, greatest, heq, hle⟩ := ih x
      refine ⟨y :: front, greatest, by rw [heq, List.cons_append], fun a ha => ?_⟩
      rcases List.mem_cons.mp ha with rfl | ha
      · exact hle _ List.mem_cons_self
      · rcases List.mem_cons.mp ha with rfl | ha
        · exact h.le.trans (hle x List.mem_cons_self)
        · exact hle a (List.mem_cons_of_mem _ ha)
    · obtain ⟨front, greatest, heq, hle⟩ := ih y
      refine ⟨x :: front, greatest, by rw [heq, List.cons_append], fun a ha => ?_⟩
      rcases List.mem_cons.mp ha with rfl | ha
      · exact (not_lt.mp h).trans (hle y List.mem_cons_self)
      · exact hle a ha

/-- Whether a pass exchanges a pair. -/
def exchanges (key : α → κ) (x : α) : List α → Bool
  | [] => false
  | y :: ys => if key y < key x then true else exchanges key y ys

/-- A pass that exchanges nothing has found the list sorted, and leaves it alone. -/
theorem carry_of_not_exchanges {key : α → κ} {x : α} {ys : List α}
    (h : exchanges key x ys = false) : carry key x ys = x :: ys ∧ SortedBy key (x :: ys) := by
  induction ys generalizing x with
  | nil => exact ⟨rfl, List.pairwise_singleton _ _⟩
  | cons y ys ih =>
    unfold exchanges at h
    split_ifs at h with hlt
    obtain ⟨heq, hsorted⟩ := ih h
    have hxy := not_lt.mp hlt
    refine ⟨by rw [carry, if_neg hlt, heq], sortedBy_cons.mpr ⟨fun a ha => ?_, hsorted⟩⟩
    rcases List.mem_cons.mp ha with rfl | ha
    · exact hxy
    · exact hxy.trans ((sortedBy_cons.mp hsorted).1 a ha)

/-- The inner loop is a pass over the part of the array up to its bound. -/
theorem bubblePass_eq (key : α → κ) (pre : List α) (x : α) (ys post : List α) (isExchanged : Bool)
    (hlen : pre.length + ys.length < 2^31) :
    bubblePass key (pre.length + ys.length) pre.length (pre ++ x :: (ys ++ post)) isExchanged =
      some (pre ++ (carry key x ys ++ post), isExchanged || exchanges key x ys) := by
  induction ys generalizing pre x isExchanged with
  | nil =>
    rw [bubblePass, if_neg (by simp)]
    simp [carry, exchanges]
  | cons y ys ih =>
    have hx : (pre ++ x :: (y :: ys ++ post))[pre.length]? = some x := getElem?_append_cons _ _ _
    have hy : (pre ++ x :: (y :: ys ++ post))[pre.length + 1]? = some y := by
      have h := getElem?_append_cons (pre ++ [x]) y (ys ++ post)
      rwa [List.length_append, List.length_singleton, List.append_assoc] at h
    have hswap : ((pre ++ x :: (y :: ys ++ post)).set pre.length y).set (pre.length + 1) x =
        (pre ++ [y]) ++ x :: (ys ++ post) := by simp
    have hkeep : pre ++ x :: (y :: ys ++ post) = (pre ++ [x]) ++ y :: (ys ++ post) := by simp
    have hbound : ∀ z : α, pre.length + (y :: ys).length = (pre ++ [z]).length + ys.length := by
      intro z
      rw [List.length_append, List.length_singleton, List.length_cons]
      omega
    have hnext : ∀ z : α, pre.length + 1 = (pre ++ [z]).length := fun z => by simp
    have hlt : pre.length < pre.length + (y :: ys).length := by simp
    rw [bubblePass, if_pos hlt, hx, Option.bind_some, hy, Option.bind_some,
      intSucc_eq hlt hlen, Option.bind_some, carry, exchanges]
    split_ifs with h
    · rw [hswap, hbound y, hnext y, ih _ _ _ (by rw [← hbound y]; exact hlen)]
      simp
    · rw [hkeep, hbound x, hnext x, ih _ _ _ (by rw [← hbound x]; exact hlen)]
      simp

/-- One pass of the outer loop, when some elements are left. -/
theorem bubbleLoop_pass (key : α → κ) (x : α) (ys done : List α)
    (hlen : (x :: ys ++ done).length < 2^31) :
    bubbleLoop key (x :: ys ++ done).length done.length (x :: ys ++ done) =
      if exchanges key x ys then
        bubbleLoop key (x :: ys ++ done).length (done.length + 1) (carry key x ys ++ done)
      else some (carry key x ys ++ done) := by
  have hsize : (x :: ys ++ done).length = ys.length + 1 + done.length := by
    rw [List.length_append, List.length_cons]
  have hbound : sizeSub (sizeSub (x :: ys ++ done).length done.length) 1 = ys.length := by
    have hinner : sizeSub (ys.length + 1 + done.length) done.length = ys.length + 1 := by
      rw [sizeSub_eq (by omega) (by omega), Nat.add_sub_cancel]
    rw [hsize, hinner, sizeSub_eq (by omega) (by omega), Nat.add_sub_cancel]
  have hpass := bubblePass_eq key [] x ys done false (by rw [List.length_nil]; omega)
  rw [List.length_nil, Nat.zero_add, List.nil_append, List.nil_append, Bool.false_or] at hpass
  have hlt : done.length < (x :: ys ++ done).length := by omega
  have hsucc : intSucc done.length = some (done.length + 1) := intSucc_eq hlt hlen
  rw [bubbleLoop, if_pos hlt, hbound, List.cons_append, hpass, Option.bind_some]
  simp only [hsucc, Option.bind_some]

/-- The outer loop: before index `i`, the last `i` elements are sorted, and none before them is
greater. -/
theorem bubbleLoop_eq (key : α → κ) (todo done : List α) (hlen : (todo ++ done).length < 2^31)
    (hdone : SortedBy key done) (hcross : ∀ a ∈ todo, ∀ b ∈ done, key a ≤ key b) :
    ∃ sorted, bubbleLoop key (todo ++ done).length done.length (todo ++ done) = some sorted ∧
      SortedBy key sorted ∧ Stable key (todo ++ done) sorted := by
  induction hn : todo.length generalizing todo done with
  | zero =>
    obtain rfl := List.length_eq_zero_iff.mp hn
    refine ⟨done, ?_, hdone, Stable.refl key _⟩
    rw [bubbleLoop, if_neg (by simp)]
    rfl
  | succ n ih =>
    obtain ⟨x, ys, rfl⟩ := List.exists_cons_of_length_eq_add_one hn
    have hstable : Stable key (x :: ys ++ done) (carry key x ys ++ done) :=
      (stable_carry key x ys).append (Stable.refl key done)
    rw [bubbleLoop_pass key x ys done hlen]
    cases hex : exchanges key x ys with
    | false =>
      -- Nothing was exchanged: all of the array is sorted.
      obtain ⟨heq, hsorted⟩ := carry_of_not_exchanges hex
      rw [heq] at hstable ⊢
      exact ⟨_, rfl, sortedBy_append.mpr ⟨hsorted, hdone, hcross⟩, hstable⟩
    | true =>
      -- The greatest of the elements that were left joins the sorted part.
      obtain ⟨front, greatest, heq, hle⟩ := carry_eq_concat key x ys
      have hperm := (stable_carry key x ys).perm
      rw [heq] at hperm
      have hfront : front.length = n := by
        have h := hperm.length_eq
        rw [List.length_append, List.length_singleton, List.length_cons] at h
        rw [List.length_cons] at hn
        omega
      have harray : carry key x ys ++ done = front ++ greatest :: done := by
        rw [heq, List.append_assoc, List.singleton_append]
      have hsize : (front ++ greatest :: done).length = (x :: ys ++ done).length := by
        rw [← harray]
        exact hstable.perm.length_eq
      have hmem : ∀ a ∈ front, a ∈ x :: ys := fun a ha => hperm.subset (List.mem_append_left _ ha)
      have hgreatest : greatest ∈ x :: ys :=
        hperm.subset (List.mem_append_right _ (List.mem_singleton_self _))
      have hdone' : SortedBy key (greatest :: done) :=
        sortedBy_cons.mpr ⟨fun b hb => hcross greatest hgreatest b hb, hdone⟩
      have hcross' : ∀ a ∈ front, ∀ b ∈ greatest :: done, key a ≤ key b := by
        intro a ha b hb
        rcases List.mem_cons.mp hb with rfl | hb
        · exact hle a (hmem a ha)
        · exact hcross a (hmem a ha) b hb
      obtain ⟨sorted, hloop, hsorted, hstable'⟩ :=
        ih front (greatest :: done) (by rw [hsize]; exact hlen) hdone' hcross' hfront
      rw [harray] at hstable ⊢
      rw [hsize] at hloop
      exact ⟨sorted, hloop, hsorted, hstable.trans hstable'⟩

/-- `bubbleSort` sorts, and is stable. -/
theorem bubbleSort_eq (key : α → κ) (array : List α) (hlen : array.length < 2^31) :
    ∃ sorted,
      bubbleSort key array = some sorted ∧ SortedBy key sorted ∧ Stable key array sorted := by
  have h := bubbleLoop_eq key array [] (by rw [List.append_nil]; exact hlen) List.Pairwise.nil
    (fun _ _ _ hb => absurd hb List.not_mem_nil)
  rwa [List.append_nil, List.length_nil] at h

/-! ## Insertion sort -/

/-- The inner loop, from a sorted part with a free place right after it: the elements above the item
move up by one, and leave the free place before them. -/
theorem insertionShift_eq (key : α → κ) (item : α) (pre : List α) (free : α) (post : List α)
    (hsorted : SortedBy key pre) :
    ∃ low high free', pre = low ++ high ∧ (∀ a ∈ low, key a ≤ key item) ∧
      (∀ a ∈ high, key item < key a) ∧
      insertionShift key item pre.length (pre ++ free :: post) =
        some (low ++ free' :: (high ++ post), low.length) := by
  induction pre using List.reverseRecOn generalizing free post with
  | nil => exact ⟨[], [], free, rfl, by simp, by simp, rfl⟩
  | append_singleton pre a ih =>
    obtain ⟨hpre, -, hlast⟩ := sortedBy_append.mp hsorted
    have harray : pre ++ [a] ++ free :: post = pre ++ a :: free :: post := by simp
    rw [List.length_append, List.length_singleton, insertionShift, harray,
      getElem?_append_cons, Option.bind_some]
    split_ifs with h
    · -- The last element is above the item: it moves up.
      have hstore : store (pre ++ a :: free :: post) (pre.length + 1) a =
          some (pre ++ a :: a :: post) := by
        rw [store, if_pos (by simp)]
        simp
      obtain ⟨low, high, free', heq, hlow, hhigh, hshift⟩ := ih a (a :: post) hpre
      refine ⟨low, high ++ [a], free', by rw [heq, List.append_assoc], hlow, fun b hb => ?_, ?_⟩
      · rcases List.mem_append.mp hb with hb | hb
        · exact hhigh b hb
        · rw [List.mem_singleton.mp hb]
          exact h
      · rw [hstore, Option.bind_some, hshift, List.append_assoc, List.singleton_append]
    · -- The last element is not above the item, so that none is.
      refine ⟨pre ++ [a], [], free, by rw [List.append_nil], fun b hb => ?_, by simp, by simp⟩
      have ha : key a ≤ key item := not_lt.mp h
      rcases List.mem_append.mp hb with hb | hb
      · exact (hlast b hb a (List.mem_singleton_self _)).trans ha
      · rw [List.mem_singleton.mp hb]
        exact ha

/-- One pass of the outer loop puts the next element into the sorted part. -/
theorem insertionLoop_pass (key : α → κ) (done : List α) (item : α) (todo : List α)
    (hlen : (done ++ item :: todo).length < 2^31) (hsorted : SortedBy key done) :
    ∃ done', SortedBy key done' ∧ Stable key (done ++ [item]) done' ∧
      insertionLoop key (done ++ item :: todo).length done.length (done ++ item :: todo) =
        insertionLoop key (done' ++ todo).length done'.length (done' ++ todo) := by
  obtain ⟨low, high, free, heq, hlow, hhigh, hshift⟩ :=
    insertionShift_eq key item done item todo hsorted
  obtain ⟨hlowSorted, hhighSorted, hcross⟩ := sortedBy_append.mp (heq ▸ hsorted)
  have hstable : Stable key (done ++ [item]) (low ++ item :: high) := by
    rw [heq, List.append_assoc]
    exact (Stable.refl key low).append (Stable.move fun b hb => (hhigh b hb).ne')
  have hsorted' : SortedBy key (low ++ item :: high) := by
    refine sortedBy_append.mpr ⟨hlowSorted, sortedBy_cons.mpr ⟨fun b hb => (hhigh b hb).le,
      hhighSorted⟩, fun a ha b hb => ?_⟩
    rcases List.mem_cons.mp hb with rfl | hb
    · exact hlow a ha
    · exact hcross a ha b hb
  refine ⟨low ++ item :: high, hsorted', hstable, ?_⟩
  have hlt : done.length < (done ++ item :: todo).length := by simp
  have hstore : store (low ++ free :: (high ++ todo)) low.length item =
      some (low ++ item :: high ++ todo) := by
    rw [store, if_pos (by simp)]
    simp
  have hdone : (low ++ item :: high).length = done.length + 1 := by
    rw [hstable.perm.length_eq, List.length_append, List.length_singleton]
  have hsize : (low ++ item :: high ++ todo).length = (done ++ item :: todo).length := by
    rw [List.length_append, hdone, List.length_append, List.length_cons]
    omega
  conv_lhs => rw [insertionLoop, if_pos hlt, getElem?_append_cons, Option.bind_some, hshift,
    Option.bind_some]
  simp only [hstore, Option.bind_some, intSucc_eq hlt hlen, hdone, hsize]

/-- The outer loop: before index `i`, the first `i` elements are sorted. -/
theorem insertionLoop_eq (key : α → κ) (done todo : List α) (hlen : (done ++ todo).length < 2^31)
    (hdone : SortedBy key done) :
    ∃ sorted, insertionLoop key (done ++ todo).length done.length (done ++ todo) = some sorted ∧
      SortedBy key sorted ∧ Stable key (done ++ todo) sorted := by
  induction todo generalizing done with
  | nil =>
    refine ⟨done, ?_, hdone, by rw [List.append_nil]; exact Stable.refl key _⟩
    rw [insertionLoop, if_neg (by simp), List.append_nil]
  | cons item todo ih =>
    obtain ⟨done', hdone', hstable, hloop⟩ := insertionLoop_pass key done item todo hlen hdone
    have hstable' : Stable key (done ++ item :: todo) (done' ++ todo) := by
      rw [List.append_cons]
      exact hstable.append (Stable.refl key todo)
    obtain ⟨sorted, hrest, hsorted, hrestStable⟩ :=
      ih done' (by rw [hstable'.perm.length_eq]; exact hlen) hdone'
    exact ⟨sorted, hloop.trans hrest, hsorted, hstable'.trans hrestStable⟩

/-- `insertionSort` sorts, and is stable. -/
theorem insertionSort_eq (key : α → κ) (array : List α) (hlen : array.length < 2^31) :
    ∃ sorted, insertionSort key array = some sorted ∧ SortedBy key sorted ∧
      Stable key array sorted := by
  cases array with
  | nil =>
    refine ⟨[], ?_, List.Pairwise.nil, Stable.refl key _⟩
    rw [insertionSort, insertionLoop]
    rfl
  | cons a array => exact insertionLoop_eq key [a] array hlen (List.pairwise_singleton _ _)

/-! ## Selection sort -/

/-- No element from index `i` up to `j` is less than the one at `m`, which is one of them. -/
def LeastIn (key : α → κ) (array : List α) (i m j : ℕ) : Prop :=
  ∃ hm : m < array.length, i ≤ m ∧
    ∀ k (hk : k < array.length), i ≤ k → k < j → key array[m] ≤ key array[k]

/-- The inner loop finds a least element of the rest of the array. -/
theorem selectMin_eq (key : α → κ) {array : List α} (hlen : array.length < 2^31) {i m j : ℕ}
    (hij : i ≤ j) (hleast : LeastIn key array i m j) :
    ∃ m', selectMin key array.length array j m = some m' ∧
      LeastIn key array i m' array.length := by
  induction hn : array.length - j generalizing j m with
  | zero =>
    obtain ⟨hm, him, hle⟩ := hleast
    refine ⟨m, ?_, hm, him, fun k hk hik _ => hle k hk hik (by omega)⟩
    rw [selectMin, if_neg (by omega)]
  | succ n ih =>
    obtain ⟨hm, him, hle⟩ := hleast
    have hj : j < array.length := by omega
    have hnext : LeastIn key array i (if key array[j] < key array[m] then j else m) (j + 1) := by
      split_ifs with h
      · refine ⟨hj, hij, fun k hk hik hkj => ?_⟩
        rcases Nat.lt_succ_iff_lt_or_eq.mp hkj with hlt | rfl
        · exact h.le.trans (hle k hk hik hlt)
        · exact le_rfl
      · refine ⟨hm, him, fun k hk hik hkj => ?_⟩
        rcases Nat.lt_succ_iff_lt_or_eq.mp hkj with hlt | rfl
        · exact hle k hk hik hlt
        · exact not_lt.mp h
    rw [selectMin, if_pos hj, List.getElem?_eq_getElem hm, Option.bind_some,
      List.getElem?_eq_getElem hj, Option.bind_some, intSucc_eq hj hlen, Option.bind_some]
    exact ih (by omega) hnext (by omega)

/-- The first `i` elements have their final places: none of them is greater than a later one. -/
def Placed (key : α → κ) (array : List α) (i : ℕ) : Prop :=
  ∀ k l (hl : l < array.length) (hkl : k ≤ l), k < i → key array[k] ≤ key array[l]

/-- Swapping a least element of the rest into place. -/
theorem Placed.swap {key : α → κ} {array : List α} {i m : ℕ} (h : Placed key array i)
    (hi : i < array.length) (hm : m < array.length) (hleast : LeastIn key array i m array.length) :
    Placed key ((array.set m array[i]).set i array[m]) (i + 1) := by
  obtain ⟨_, him, hle⟩ := hleast
  intro k l hl hkl hki
  have hl' : l < array.length := by simpa using hl
  simp only [List.getElem_set]
  rcases Nat.lt_succ_iff_lt_or_eq.mp hki with hlt | rfl
  · -- An element placed before stays, and was not greater than either of the two.
    rw [if_neg (show ¬ i = k by omega), if_neg (show ¬ m = k by omega)]
    split_ifs with hil hml
    · exact h k m hm (by omega) hlt
    · exact h k i hi (by omega) hlt
    · exact h k l hl' hkl hlt
  · -- The least element comes before all of the rest.
    rw [if_pos rfl]
    split_ifs with hil hml
    · exact le_rfl
    · exact hle k hi le_rfl hi
    · exact hle l hl' hkl hl'

/-- One pass of the outer loop. -/
theorem selectLoop_pass (key : α → κ) {array : List α} (hlen : array.length < 2^31) {i : ℕ}
    (hi : i < array.length) (hplaced : Placed key array i) :
    ∃ array', array'.Perm array ∧ Placed key array' (i + 1) ∧
      selectLoop key array.length i array = selectLoop key array'.length (i + 1) array' := by
  have hfirst : LeastIn key array i i (i + 1) := by
    refine ⟨hi, le_rfl, fun k hk hik hki => ?_⟩
    obtain rfl : i = k := by omega
    exact le_rfl
  obtain ⟨m, hmin, hleast⟩ := selectMin_eq key hlen (Nat.le_succ i) hfirst
  have hm : m < array.length := hleast.1
  have hperm : ((array.set m array[i]).set i array[m]).Perm array := List.set_set_perm hm hi
  have hswap : (if m ≠ i then swapAt array m i else some array) =
      some ((array.set m array[i]).set i array[m]) := by
    split_ifs with h
    · rw [swapAt, List.getElem?_eq_getElem hm, Option.bind_some, List.getElem?_eq_getElem hi,
        Option.map_some]
    · obtain rfl := not_not.mp h
      simp
  refine ⟨_, hperm, hplaced.swap hi hm hleast, ?_⟩
  conv_lhs => rw [selectLoop, if_pos hi, intSucc_eq hi hlen, Option.bind_some, hmin,
    Option.bind_some, hswap, Option.bind_some]
  rw [hperm.length_eq]

/-- The outer loop: before index `i`, the first `i` elements have their final places. -/
theorem selectLoop_eq (key : α → κ) {array : List α} (hlen : array.length < 2^31) {i : ℕ}
    (hplaced : Placed key array i) :
    ∃ sorted, selectLoop key array.length i array = some sorted ∧ SortedBy key sorted ∧
      sorted.Perm array := by
  induction hn : array.length - i generalizing i array with
  | zero =>
    refine ⟨array, by rw [selectLoop, if_neg (by omega)], ?_, List.Perm.refl array⟩
    exact List.pairwise_iff_getElem.mpr fun k l hk hl hkl => hplaced k l hl hkl.le (by omega)
  | succ n ih =>
    obtain ⟨array', hperm, hplaced', hloop⟩ :=
      selectLoop_pass key hlen (show i < array.length by omega) hplaced
    have hlen' := hperm.length_eq
    obtain ⟨sorted, hrest, hsorted, hperm'⟩ := ih (by omega) hplaced' (by omega)
    exact ⟨sorted, hloop.trans hrest, hsorted, hperm'.trans hperm⟩

/-- `selectSort` sorts. -/
theorem selectSort_eq (key : α → κ) (array : List α) (hlen : array.length < 2^31) :
    ∃ sorted, selectSort key array = some sorted ∧ SortedBy key sorted ∧ sorted.Perm array :=
  selectLoop_eq key hlen fun _ _ _ _ hk => absurd hk (Nat.not_lt_zero _)

/-! ## The three together -/

/-- On a vector of fewer than `2^31` integers, each of the three algorithms ends without an access
out of bounds, with the ascending permutation of the vector; and with elements compared by a key,
`bubbleSort` and `insertionSort` keep the elements of each key in order. -/
theorem sorts_correct :
    (∀ array : List ℤ, array.length < 2^31 →
      ∃ sorted : List ℤ, sorted.Perm array ∧ sorted.Pairwise (· ≤ ·) ∧
        bubbleSort id array = some sorted ∧ insertionSort id array = some sorted ∧
        selectSort id array = some sorted) ∧
      ∀ (α κ : Type) [LinearOrder κ] (key : α → κ) (array : List α), array.length < 2^31 →
        (∃ sorted, bubbleSort key array = some sorted ∧ SortedBy key sorted ∧
          Stable key array sorted) ∧
        (∃ sorted, insertionSort key array = some sorted ∧ SortedBy key sorted ∧
          Stable key array sorted) ∧
        ∃ sorted, selectSort key array = some sorted ∧ SortedBy key sorted ∧
          sorted.Perm array := by
  refine ⟨fun array hlen => ?_, fun α κ _ key array hlen =>
    ⟨bubbleSort_eq key array hlen, insertionSort_eq key array hlen, selectSort_eq key array hlen⟩⟩
  obtain ⟨b, hb, hbSorted, hbStable⟩ := bubbleSort_eq id array hlen
  obtain ⟨s, hs, hsSorted, hsStable⟩ := insertionSort_eq id array hlen
  obtain ⟨c, hc, hcSorted, hcPerm⟩ := selectSort_eq id array hlen
  -- There is only one sorted permutation.
  obtain rfl : b = s := hbSorted.eq_of_perm hsSorted (hbStable.perm.trans hsStable.perm.symm)
  obtain rfl : b = c := hbSorted.eq_of_perm hcSorted (hbStable.perm.trans hcPerm.symm)
  exact ⟨b, hbStable.perm, hbSorted, hb, hs, hc⟩

/-- `sorts_correct` for the vector that the three programs sort. -/
theorem sorts_correct_main : ∃ sorted : List ℤ, sorted.Perm [2, 1, 9, 8, 7] ∧
    sorted.Pairwise (· ≤ ·) ∧ bubbleSort id [2, 1, 9, 8, 7] = some sorted ∧
    insertionSort id [2, 1, 9, 8, 7] = some sorted ∧ selectSort id [2, 1, 9, 8, 7] = some sorted :=
  sorts_correct.1 [2, 1, 9, 8, 7] (by decide)

end CxxPandora.Sort
