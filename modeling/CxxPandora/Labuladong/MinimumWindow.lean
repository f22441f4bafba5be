import CxxPandora.Labuladong.SlidingWindow
import CxxPandora.Lib.Loops

/-!
# The minimum window substring

`minimumWindowSubstring` of `algorithms/labuladong/sliding-window/main.cpp`: the shortest part of
`s` that has every character of `t` as often as `t` does. The right end advances over `s`, and after
each step the left end follows as long as the window has all that is needed. `MinInv` is what holds
in between: no part that the two ends have passed is better than the best one recorded.

The positions are `int`, and `INT_MAX` stands for no window. `findsMinimum_iff` shows when the
result is right: when the counts and the positions do not overflow, and the only window is not all
of an `s` of `INT_MAX` characters.
-/

namespace CxxPandora.Labuladong.SlidingWindow

open Lib

/-! ## The source -/

/-- The variables of the loops, but for `right`. -/
structure MinState where
  /-- `left`. -/
  left : ℕ
  /-- `start`. -/
  start : ℕ
  /-- `len`. -/
  len : ℤ
  /-- `window` and `valid`. -/
  counts : Counts

/-- The better of the window recorded and the one from `left` to `right`. -/
def MinState.record (st : MinState) (right : ℕ) : MinState :=
  if (right : ℤ) - st.left < st.len then { st with start := st.left, len := right - st.left }
  else st

/-- The inner loop; `none` when it reads `s` out of its bounds or overflows. A read of the
terminator is out of bounds too: nothing is needed then, and the loop goes on to read beyond it. -/
def shrink (s : List UInt8) (need : IntMap UInt8) (right : ℕ) (st : MinState) : Option MinState :=
  if toSize st.counts.valid = need.size then
    match _h : s[st.left]? with
    | none => none
    | some d =>
      (leave need d st.counts).bind fun counts => (checkInt ((st.left : ℤ) + 1)).bind fun _ =>
        shrink s need right { st.record right with left := st.left + 1, counts := counts }
  else some st
termination_by s.length - st.left
decreasing_by
  obtain ⟨hlt, -⟩ := List.getElem?_eq_some_iff.mp _h
  exact Nat.sub_succ_lt_self _ _ hlt

/-- The outer loop. -/
def minLoop (s : List UInt8) (need : IntMap UInt8) (right : ℕ) (st : MinState) : Option MinState :=
  if right < s.length then
    s[right]?.bind fun c => (enter need c st.counts).bind fun counts =>
      (checkInt ((right : ℤ) + 1)).bind fun _ =>
        (shrink s need (right + 1) { st with counts := counts }).bind (minLoop s need (right + 1))
  else some st
termination_by s.length - right

/-- `s.substr(start, len)`; `none` when it throws. -/
def substr (s : List UInt8) (start : ℕ) (len : ℤ) : Option (List UInt8) :=
  if start ≤ s.length then some ((s.drop start).take (toSize len)) else none

/-- `minimumWindowSubstring`; `none` when it is undefined. -/
def minimumWindowSubstring (s t : List UInt8) : Option (List UInt8) :=
  (IntMap.countAll t).bind fun need => (minLoop s need 0 ⟨0, 0, intMax, .init⟩).bind fun st =>
    if st.len = intMax then some [] else substr s st.start st.len

/-! ## What the loops keep -/

/-- What holds while the window is from `left` to `right`. -/
structure MinInv (s t : List UInt8) (right : ℕ) (st : MinState) : Prop where
  /-- The left end is not beyond the right end. -/
  left_le : st.left ≤ right
  /-- The right end is in `s`. -/
  right_le : right ≤ s.length
  /-- The counts are those of the window. -/
  tracks : Tracks t (slice s st.left right) st.counts
  /-- The window recorded does not start right of the current one. -/
  start_le : st.start ≤ st.left
  /-- Its length is an `int`. -/
  len_le : st.len ≤ intMax
  /-- It is a window, unless there is none. -/
  found : st.len = intMax ∨ ∃ j ≤ right, st.start ≤ j ∧ st.len = (j : ℤ) - st.start ∧
    t.Subperm (slice s st.start j)
  /-- No part that has been passed is better. -/
  best : ∀ i j, i ≤ j → j < right ∨ j = right ∧ i < st.left → (j : ℤ) - i < intMax →
    t.Subperm (slice s i j) → st.len < (j : ℤ) - i ∨ st.len = (j : ℤ) - i ∧ st.start ≤ i
  /-- The windows that start left of the current one are not shorter. -/
  passed : ∀ i < st.left, st.len ≤ (right : ℤ) - i

variable {s t : List UInt8} {need : IntMap UInt8} {right : ℕ} {st : MinState}

/-- The invariant holds before the loops. -/
theorem MinInv.init (s t : List UInt8) : MinInv s t 0 ⟨0, 0, intMax, .init⟩ where
  left_le := le_rfl
  right_le := Nat.zero_le _
  tracks := by
    rw [slice_self]
    exact tracks_init t
  start_le := le_rfl
  len_le := le_rfl
  found := Or.inl rfl
  best i j hij hpassed := by
    dsimp only at hpassed
    omega
  passed i hi := absurd hi (Nat.not_lt_zero i)

/-- While the window does not cover `t`, no part up to the right end is better. -/
theorem MinInv.best_le (h : MinInv s t right st) (hnot : ¬ t.Subperm (slice s st.left right))
    {i j : ℕ} (hij : i ≤ j) (hj : j ≤ right) (hlt : (j : ℤ) - i < intMax)
    (hcov : t.Subperm (slice s i j)) :
    st.len < (j : ℤ) - i ∨ st.len = (j : ℤ) - i ∧ st.start ≤ i := by
  by_cases hpassed : j < right ∨ j = right ∧ i < st.left
  · exact h.best i j hij hpassed hlt hcov
  · -- This part is inside the window.
    have hsub : (slice s i j).Sublist (slice s st.left right) :=
      slice_sublist (by omega) (by omega)
    exact absurd (hcov.trans hsub.subperm) hnot

/-- A character comes in to a window that does not cover `t`. -/
theorem MinInv.enter (h : MinInv s t right st) (hnot : ¬ t.Subperm (slice s st.left right))
    {c : UInt8} (hc : s[right]? = some c) {counts : Counts}
    (hcounts : Tracks t (slice s st.left right ++ [c]) counts) :
    MinInv s t (right + 1) { st with counts := counts } where
  left_le := Nat.le_succ_of_le h.left_le
  right_le := (List.getElem?_eq_some_iff.mp hc).1
  tracks := by
    rw [slice_succ h.left_le hc]
    exact hcounts
  start_le := h.start_le
  len_le := h.len_le
  found := by
    rcases h.found with hnone | ⟨j, hj, hfound⟩
    · exact Or.inl hnone
    · exact Or.inr ⟨j, Nat.le_succ_of_le hj, hfound⟩
  best i j hij hpassed hlt hcov := by
    dsimp only at hpassed ⊢
    by_cases hj : j ≤ right
    · exact h.best_le hnot hij hj hlt hcov
    · -- The window recorded is no longer than the part before the character came in.
      have hle := h.passed i (by omega)
      omega
  passed i hi := by
    have hle := h.passed i hi
    push_cast
    omega

/-- A covering window is not empty. -/
theorem left_lt_of_covers (hne : t ≠ []) (h : st.left ≤ right)
    (hcov : t.Subperm (slice s st.left right)) : st.left < right := by
  rcases Nat.lt_or_eq_of_le h with hlt | heq
  · exact hlt
  · rw [heq, slice_self] at hcov
    exact absurd (List.subperm_nil.mp hcov) hne

/-- A covering window is recorded if it is better, and its first character goes out. -/
theorem MinInv.leave (h : MinInv s t right st) (hcov : t.Subperm (slice s st.left right))
    (hlt : st.left < right) {counts : Counts}
    (hcounts : Tracks t (slice s (st.left + 1) right) counts) :
    MinInv s t right { st.record right with left := st.left + 1, counts := counts } := by
  have hstart := h.start_le
  have hlen := h.len_le
  unfold MinState.record
  split_ifs with hbetter
  · refine ⟨hlt, h.right_le, hcounts, Nat.le_succ _, (hbetter.trans_le hlen).le,
      Or.inr ⟨right, le_rfl, h.left_le, rfl, hcov⟩, fun i j hij hpassed hmax hcov' => ?_,
      fun i hi => ?_⟩
    · dsimp only at hpassed ⊢
      by_cases hold : j < right ∨ j = right ∧ i < st.left
      · have hbest := h.best i j hij hold hmax hcov'
        omega
      · omega
    · dsimp only at hi ⊢
      by_cases hold : i < st.left
      · have hle := h.passed i hold
        omega
      · omega
  · refine ⟨hlt, h.right_le, hcounts, Nat.le_succ_of_le hstart, hlen, h.found,
      fun i j hij hpassed hmax hcov' => ?_, fun i hi => ?_⟩
    · dsimp only at hpassed ⊢
      by_cases hold : j < right ∨ j = right ∧ i < st.left
      · exact h.best i j hij hold hmax hcov'
      · obtain ⟨rfl, rfl⟩ : j = right ∧ i = st.left := by omega
        omega
    · dsimp only at hi ⊢
      by_cases hold : i < st.left
      · exact h.passed i hold
      · obtain rfl : i = st.left := by omega
        omega

/-! ## The loops -/

/-- A pass of the inner loop reads the first character of the window. -/
theorem shrink_eq (hsize : toSize st.counts.valid = need.size) :
    shrink s need right st = s[st.left]?.bind fun d =>
      (leave need d st.counts).bind fun counts => (checkInt ((st.left : ℤ) + 1)).bind fun _ =>
        shrink s need right { st.record right with left := st.left + 1, counts := counts } := by
  rw [shrink, if_pos hsize]
  split
  · rename_i hnone
    rw [hnone, Option.bind_none]
  · rename_i d hd
    rw [hd, Option.bind_some]

/-- The inner loop ends with a window that does not cover `t`. -/
theorem shrink_spec (hne : t ≠ []) (hneed : Needs t need) (hs : s.length < 2^31)
    (h : MinInv s t right st) : ∃ st', shrink s need right st = some st' ∧ MinInv s t right st' ∧
      ¬ t.Subperm (slice s st'.left right) := by
  induction hk : right - st.left using Nat.strong_induction_on generalizing st with
  | _ k ih =>
    have hright := h.right_le
    have hwindow : (slice s st.left right).length < 2^31 := by
      rw [length_slice hright]
      omega
    have hiff := h.tracks.covers_iff hneed hwindow
    by_cases hcov : t.Subperm (slice s st.left right)
    · have hlt := left_lt_of_covers hne h.left_le hcov
      have hd : s[st.left]? = some s[st.left] := List.getElem?_eq_getElem (hlt.trans_le hright)
      have htracks := h.tracks
      rw [slice_eq_cons hlt hd] at htracks
      obtain ⟨counts, hleave, hcounts⟩ := leave_spec hneed htracks (by
        rw [length_slice hright]
        omega)
      have hcheck := checkInt_succ (n := st.left) (by omega)
      rw [shrink_eq (hiff.mpr hcov), hd, Option.bind_some, hleave, Option.bind_some, hcheck,
        Option.bind_some]
      exact ih _ (by dsimp only; omega) (h.leave hcov hlt hcounts) rfl
    · rw [shrink, if_neg (mt hiff.mp hcov)]
      exact ⟨st, rfl, h, hcov⟩

/-- The outer loop ends with a window that does not cover `t`, at the end of `s`. -/
theorem minLoop_spec (hne : t ≠ []) (hneed : Needs t need) (hs : s.length < 2^31)
    (h : MinInv s t right st) (hnot : ¬ t.Subperm (slice s st.left right)) :
    ∃ st', minLoop s need right st = some st' ∧ MinInv s t s.length st' ∧
      ¬ t.Subperm (slice s st'.left s.length) := by
  induction hk : s.length - right generalizing right st with
  | zero =>
    obtain rfl : right = s.length := Nat.le_antisymm h.right_le (by omega)
    rw [minLoop, if_neg (Nat.lt_irrefl _)]
    exact ⟨st, rfl, h, hnot⟩
  | succ k ih =>
    have hlt : right < s.length := by omega
    have hc : s[right]? = some s[right] := List.getElem?_eq_getElem hlt
    obtain ⟨counts, henter, hcounts⟩ := enter_spec hneed h.tracks (by
      rw [length_slice h.right_le]
      omega) s[right]
    have hcheck := checkInt_succ (n := right) (by omega)
    obtain ⟨st', hshrink, h', hnot'⟩ := shrink_spec hne hneed hs (h.enter hnot hc hcounts)
    rw [minLoop, if_pos hlt, hc, Option.bind_some, henter, Option.bind_some, hcheck,
      Option.bind_some, hshrink, Option.bind_some]
    exact ih h' hnot' (by omega)

/-- The right end overflows when `s` has `2^31` characters or more. -/
theorem minLoop_eq_none (hright : right < 2^31) (hs : 2^31 ≤ s.length) :
    minLoop s need right st = none := by
  refine eq_none_of_overflow (minLoop s need) (fun right st hright => ?_) hright
  have hc : s[right]? = some s[right] := List.getElem?_eq_getElem (hright.trans_le hs)
  rw [minLoop, if_pos (hright.trans_le hs), hc, Option.bind_some]
  cases enter need s[right] st.counts with
  | none => exact Or.inl rfl
  | some counts =>
    rw [Option.bind_some]
    rcases checkInt_succ_cases right with ⟨-, hcheck⟩ | ⟨hlt, hcheck⟩
    · rw [hcheck]
      exact Or.inl rfl
    · rw [hcheck, Option.bind_some]
      cases shrink s need (right + 1) { st with counts := counts } with
      | none => exact Or.inl rfl
      | some st' => exact Or.inr ⟨hlt, st', rfl⟩

/-! ## The result -/

/-- The leftmost of the shortest parts of `s` that have every character of `t` as often as `t`. -/
def IsMinimum (s t r : List UInt8) : Prop :=
  ∃ i j, i ≤ j ∧ j ≤ s.length ∧ r = slice s i j ∧ t.Subperm r ∧
    ∀ i' j', i' ≤ j' → j' ≤ s.length → t.Subperm (slice s i' j') →
      j - i < j' - i' ∨ j - i = j' - i' ∧ i ≤ i'

/-- The result is the leftmost of the shortest parts of `s` that have every character of `t` as
often as `t`, and empty exactly when no part has. -/
def FindsMinimum (s t : List UInt8) : Prop :=
  ∃ r, minimumWindowSubstring s t = some r ∧
    (r = [] ↔ ∀ w, w <:+: s → ¬ t.Subperm w) ∧ (r ≠ [] → IsMinimum s t r)

/-- `s` has `INT_MAX` characters and covers `t`, and without its first or its last one does not. -/
def OnlyWhole (s t : List UInt8) : Prop :=
  s.length = 2^31 - 1 ∧ t.Subperm s ∧ ¬ t.Subperm s.tail ∧ ¬ t.Subperm s.dropLast

/-- `s` without its first character. -/
theorem slice_one (s : List UInt8) : slice s 1 s.length = s.tail := by
  rw [slice, List.drop_one, ← List.length_tail, List.take_length]

/-- `s` without its last character. -/
theorem slice_pred (s : List UInt8) : slice s 0 (s.length - 1) = s.dropLast := by
  rw [slice_zero, List.dropLast_eq_take]

/-- The result is the best part of fewer than `INT_MAX` characters, and empty if there is none. -/
theorem minimumWindowSubstring_spec (hne : t ≠ []) (hcount : ∀ c, t.count c < 2^31)
    (hs : s.length < 2^31) :
    ∃ r, minimumWindowSubstring s t = some r ∧
      (r = [] ∧ (∀ i j, i ≤ j → j ≤ s.length → j - i < 2^31 - 1 → ¬ t.Subperm (slice s i j)) ∨
        r.length < 2^31 - 1 ∧ IsMinimum s t r) := by
  obtain ⟨need, hneed⟩ := IntMap.countAll_isSome hcount
  have hempty : ¬ t.Subperm (slice s 0 0) := by
    rw [slice_self, List.subperm_nil]
    exact hne
  obtain ⟨st, hloop, h, hnot⟩ := minLoop_spec hne (needs_of_countAll hneed) hs (MinInv.init s t)
    hempty
  have hmax : intMax = 2^31 - 1 := rfl
  have hbest : ∀ i j, i ≤ j → j ≤ s.length → (j : ℤ) - i < intMax → t.Subperm (slice s i j) →
      st.len < (j : ℤ) - i ∨ st.len = (j : ℤ) - i ∧ st.start ≤ i :=
    fun i j hij hj => h.best_le hnot hij hj
  rw [minimumWindowSubstring, hneed, Option.bind_some, hloop, Option.bind_some]
  by_cases hlen : st.len = intMax
  · rw [if_pos hlen]
    refine ⟨[], rfl, Or.inl ⟨rfl, fun i j hij hj hlt hcov => ?_⟩⟩
    have hcases := hbest i j hij hj (by omega) hcov
    omega
  · rw [if_neg hlen]
    obtain ⟨j, hj, hstart, heq, hcov⟩ := h.found.resolve_left hlen
    have hle := h.len_le
    have hsize : toSize st.len = j - st.start := by
      rw [heq, ← Int.natCast_sub hstart]
      exact toSize_natCast (by omega)
    rw [substr, if_pos (hstart.trans hj), hsize]
    refine ⟨slice s st.start j, rfl, Or.inr ⟨?_, st.start, j, hstart, hj, rfl, hcov, ?_⟩⟩
    · rw [length_slice hj]
      omega
    · intro i' j' hij' hj' hcov'
      by_cases hlt : (j' : ℤ) - i' < intMax
      · have hcases := hbest i' j' hij' hj' hlt hcov'
        omega
      · omega

/-- A part that covers `t` is all of `s`, when no shorter one covers it. -/
theorem onlyWhole_of_covers (hs : s.length < 2^31)
    (hshort : ∀ i j, i ≤ j → j ≤ s.length → j - i < 2^31 - 1 → ¬ t.Subperm (slice s i j)) {i j : ℕ}
    (hij : i ≤ j) (hj : j ≤ s.length) (hcov : t.Subperm (slice s i j)) : OnlyWhole s t := by
  have hlong : ¬ j - i < 2^31 - 1 := fun hlt => hshort i j hij hj hlt hcov
  obtain ⟨rfl, rfl⟩ : i = 0 ∧ j = s.length := by omega
  rw [slice_length] at hcov
  refine ⟨by omega, hcov, ?_, ?_⟩
  · rw [← slice_one]
    exact hshort 1 s.length (by omega) le_rfl (by omega)
  · rw [← slice_pred]
    exact hshort 0 (s.length - 1) (Nat.zero_le _) (Nat.sub_le _ _) (by omega)

/-- A part of fewer characters than `s` is in `s` without its first or without its last one. -/
theorem not_onlyWhole_of_covers {i j : ℕ} (hij : i ≤ j) (hj : j ≤ s.length)
    (hlt : j - i < 2^31 - 1) (hcov : t.Subperm (slice s i j)) : ¬ OnlyWhole s t := by
  rintro ⟨hlen, -, htail, hlast⟩
  rcases Nat.eq_zero_or_pos i with rfl | hpos
  · have hsub : (slice s 0 j).Sublist (slice s 0 (s.length - 1)) :=
      slice_sublist le_rfl (by omega)
    rw [slice_pred] at hsub
    exact hlast (hcov.trans hsub.subperm)
  · have hsub : (slice s i j).Sublist (slice s 1 s.length) := slice_sublist hpos hj
    rw [slice_one] at hsub
    exact htail (hcov.trans hsub.subperm)

/-- Nothing is returned when a count or a position overflows. -/
theorem minimumWindowSubstring_eq_none (h : (∃ c, 2^31 ≤ t.count c) ∨ 2^31 ≤ s.length) :
    minimumWindowSubstring s t = none := by
  rcases h with ⟨c, hc⟩ | hs
  · rw [minimumWindowSubstring, IntMap.countAll_eq_none hc, Option.bind_none]
  · rw [minimumWindowSubstring]
    cases IntMap.countAll t with
    | none => rfl
    | some need => rw [Option.bind_some, minLoop_eq_none (by omega) hs, Option.bind_none]

/-- The result is right exactly when no count and no position overflows, and the only window is not
all of an `s` of `INT_MAX` characters. -/
theorem findsMinimum_iff (s t : List UInt8) (hne : t ≠ []) :
    FindsMinimum s t ↔ (∀ c, t.count c < 2^31) ∧ s.length < 2^31 ∧ ¬ OnlyWhole s t := by
  constructor
  · rintro ⟨r, hrun, hnone, -⟩
    have hdefined : ¬ ((∃ c, 2^31 ≤ t.count c) ∨ 2^31 ≤ s.length) := by
      intro hover
      rw [minimumWindowSubstring_eq_none hover] at hrun
      exact Option.some_ne_none _ hrun.symm
    rw [not_or, not_exists, not_le] at hdefined
    obtain ⟨hcount, hs⟩ := hdefined
    have hcount : ∀ c, t.count c < 2^31 := fun c => not_le.mp (hcount c)
    refine ⟨hcount, hs, fun honly => ?_⟩
    obtain ⟨r', hrun', hr'⟩ := minimumWindowSubstring_spec hne hcount hs
    obtain rfl : r = r' := Option.some.inj (hrun.symm.trans hrun')
    rcases hr' with ⟨hempty, -⟩ | ⟨hlen, i, j, hij, hj, rfl, hcov, -⟩
    · exact hnone.mp hempty s List.infix_rfl honly.2.1
    · rw [length_slice hj] at hlen
      exact not_onlyWhole_of_covers hij hj hlen hcov honly
  · rintro ⟨hcount, hs, honly⟩
    obtain ⟨r, hrun, hr⟩ := minimumWindowSubstring_spec hne hcount hs
    refine ⟨r, hrun, ?_⟩
    rcases hr with ⟨rfl, hshort⟩ | ⟨-, hmin⟩
    · refine ⟨iff_of_true rfl fun w hw hcov => ?_, fun h => absurd rfl h⟩
      obtain ⟨i, j, hij, hj, rfl⟩ := isInfix_iff_slice.mp hw
      exact honly (onlyWhole_of_covers hs hshort hij hj hcov)
    · obtain ⟨i, j, hij, hj, rfl, hcov, -⟩ := id hmin
      refine ⟨iff_of_false (fun hempty => ?_) fun hall => ?_, fun _ => hmin⟩
      · rw [hempty] at hcov
        exact hne (List.subperm_nil.mp hcov)
      · exact hall _ (isInfix_iff_slice.mpr ⟨i, j, hij, hj, rfl⟩) hcov

/-- `findsMinimum_iff` for the strings `"abc"` and `"b"`. -/
theorem findsMinimum_b : FindsMinimum [97, 98, 99] [98] :=
  (findsMinimum_iff [97, 98, 99] [98] (List.cons_ne_nil _ _)).mpr
    ⟨fun c => List.count_le_length.trans_lt (by decide), by decide, fun h => by
      have hlen := h.1
      simp at hlen⟩

/-- For `2^31` characters, nothing is returned. -/
theorem not_findsMinimum_zeros : ¬ ∀ s t : List UInt8, t ≠ [] → FindsMinimum s t := by
  intro hall
  obtain ⟨r, hrun, -⟩ := hall (List.replicate (2^31) 0) [0] (List.cons_ne_nil _ _)
  rw [minimumWindowSubstring_eq_none (Or.inr (by rw [List.length_replicate]))] at hrun
  exact Option.some_ne_none _ hrun.symm

end CxxPandora.Labuladong.SlidingWindow
