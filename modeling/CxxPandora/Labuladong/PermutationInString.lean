import CxxPandora.Labuladong.MinimumWindow

/-!
# A permutation in a string

`permutation_in_string` of `algorithms/labuladong/sliding-window/permutation_in_string.cpp`: whether
some part of `s` is a permutation of `t`. The window never has more characters than `t`, and one of
as many that has all that is needed has nothing else. `decides_iff` shows when the result is right:
the counts must not overflow, nor the positions before the first permutation is found.

`total_iff` is about both functions of the directory: they end and stay inside `s` exactly when
nothing overflows and `t` is not empty, or `s` is. With an empty `t` the inner loop of
`minimumWindowSubstring` never has a window that needs more.
-/

namespace CxxPandora.Labuladong.SlidingWindow

open Lib

/-! ## The source -/

/-- The inner loop: whether it returns true, and otherwise `left` and the counts. It is `none` when
it reads `s` out of its bounds or overflows. -/
def permShrink (s : List UInt8) (need : IntMap UInt8) (size right left : ℕ) (counts : Counts) :
    Option (Bool × ℕ × Counts) :=
  if size ≤ toSize ((right : ℤ) - left) then
    if toSize counts.valid = need.size then some (true, left, counts)
    else
      match _h : s[left]? with
      | none => none
      | some d =>
        (checkInt ((left : ℤ) + 1)).bind fun _ => (leave need d counts).bind fun counts =>
          permShrink s need size right (left + 1) counts
  else some (false, left, counts)
termination_by s.length - left
decreasing_by
  obtain ⟨hlt, -⟩ := List.getElem?_eq_some_iff.mp _h
  exact Nat.sub_succ_lt_self _ _ hlt

/-- The outer loop. -/
def permLoop (s : List UInt8) (need : IntMap UInt8) (size right left : ℕ) (counts : Counts) :
    Option Bool :=
  if right < s.length then
    s[right]?.bind fun c => (checkInt ((right : ℤ) + 1)).bind fun _ =>
      (enter need c counts).bind fun counts =>
        (permShrink s need size (right + 1) left counts).bind fun (found, left, counts) =>
          if found then some true else permLoop s need size (right + 1) left counts
  else some false
termination_by s.length - right

/-- `permutation_in_string`; `none` when it is undefined. -/
def permutation_in_string (t s : List UInt8) : Option Bool :=
  (IntMap.countAll t).bind fun need => permLoop s need t.length 0 0 .init

/-! ## The loops -/

/-- What holds while the window is from `left` to `right`. -/
structure PermInv (t s : List UInt8) (right left : ℕ) (counts : Counts) : Prop where
  /-- The left end is not beyond the right end. -/
  left_le : left ≤ right
  /-- The right end is in `s`. -/
  right_le : right ≤ s.length
  /-- The counts are those of the window. -/
  tracks : Tracks t (slice s left right) counts
  /-- The window has not lost more than it has to. -/
  wide : left = 0 ∨ t.length ≤ right + 1 - left
  /-- The window has fewer characters than `t`. -/
  narrow : right - left < t.length
  /-- No part so far is a permutation. -/
  none : ∀ i j, i ≤ j → j ≤ right → ¬ (slice s i j).Perm t

variable {s t : List UInt8} {need : IntMap UInt8} {right left : ℕ} {counts : Counts}

/-- A part of as many characters as `t` is a permutation when it covers `t`. -/
theorem perm_iff_covers {w : List UInt8} (hlen : w.length = t.length) :
    w.Perm t ↔ t.Subperm w :=
  ⟨fun h => h.symm.subperm, fun h => (h.perm_of_length_le hlen.le).symm⟩

/-- The inner loop ends at once with fewer characters than `t`. -/
theorem permShrink_narrow (hlt : right - left < t.length) (hle : left ≤ right)
    (hright : right < 2^31) :
    permShrink s need t.length right left counts = some (false, left, counts) := by
  have hsize : toSize ((right : ℤ) - left) = right - left := by
    rw [← Int.natCast_sub hle]
    exact toSize_natCast (by omega)
  rw [permShrink, hsize, if_neg (by omega)]

/-- A pass of the inner loop that does not return reads the first character of the window. -/
theorem permShrink_eq {size : ℕ} (hsize : size ≤ toSize ((right : ℤ) - left))
    (hvalid : toSize counts.valid ≠ need.size) :
    permShrink s need size right left counts = s[left]?.bind fun d =>
      (checkInt ((left : ℤ) + 1)).bind fun _ => (leave need d counts).bind fun counts =>
        permShrink s need size right (left + 1) counts := by
  rw [permShrink, if_pos hsize, if_neg hvalid]
  split
  · rename_i hnone
    rw [hnone, Option.bind_none]
  · rename_i d hd
    rw [hd, Option.bind_some]

/-- With as many characters as `t`, the inner loop returns, or takes the first character out. -/
theorem permShrink_full (hneed : Needs t need) (hne : t ≠ []) (hright : right ≤ s.length)
    (hlt : right < 2^31) (hle : left ≤ right) (hfull : right - left = t.length)
    (h : Tracks t (slice s left right) counts) :
    permShrink s need t.length right left counts = some (true, left, counts) ∧
        (slice s left right).Perm t ∨
      ∃ counts', permShrink s need t.length right left counts = some (false, left + 1, counts') ∧
        Tracks t (slice s (left + 1) right) counts' ∧ ¬ (slice s left right).Perm t := by
  have hpos : 0 < t.length := List.length_pos_iff.mpr hne
  have hlen : (slice s left right).length = t.length := by rw [length_slice hright, hfull]
  have hsize : toSize ((right : ℤ) - left) = t.length := by
    rw [← Int.natCast_sub hle, hfull]
    exact toSize_natCast (by omega)
  have hiff := h.covers_iff hneed (by omega)
  rw [perm_iff_covers hlen]
  by_cases hcov : t.Subperm (slice s left right)
  · rw [permShrink, hsize, if_pos le_rfl, if_pos (hiff.mpr hcov)]
    exact Or.inl ⟨rfl, hcov⟩
  · have hd : s[left]? = some s[left] := List.getElem?_eq_getElem (by omega)
    rw [slice_eq_cons (by omega) hd] at h
    obtain ⟨counts', hleave, hcounts⟩ := leave_spec hneed h (by
      rw [length_slice hright]
      omega)
    have hcheck := checkInt_succ (n := left) (by omega)
    rw [permShrink_eq hsize.ge (mt hiff.mp hcov), hd, Option.bind_some, hcheck, Option.bind_some,
      hleave, Option.bind_some, permShrink_narrow (by omega) (by omega) hlt]
    exact Or.inr ⟨counts', rfl, hcounts, hcov⟩

/-- A permutation that ends at a position starts as many characters before it as `t` has. -/
theorem left_eq_of_perm {i : ℕ} (hright : right ≤ s.length) (hi : i ≤ right)
    (h : (slice s i right).Perm t) : i + t.length = right := by
  have hlen := h.length_eq
  rw [length_slice hright] at hlen
  omega

/-- One pass of the outer loop: it finds a permutation that ends with the character that came in, or
goes on with the invariant. -/
theorem permStep_spec (hneed : Needs t need) (hne : t ≠ []) (h : PermInv t s right left counts)
    (hlt : right < s.length) (hmax : right + 1 < 2^31) :
    ∃ counts₁, enter need s[right] counts = some counts₁ ∧
      (permShrink s need t.length (right + 1) left counts₁ = some (true, left, counts₁) ∧
          (slice s left (right + 1)).Perm t ∨
        ∃ left' counts', permShrink s need t.length (right + 1) left counts₁ =
            some (false, left', counts') ∧ PermInv t s (right + 1) left' counts') := by
  have hc : s[right]? = some s[right] := List.getElem?_eq_getElem hlt
  have hle := h.left_le
  have hnarrow := h.narrow
  obtain ⟨counts₁, henter, htracks⟩ := enter_spec hneed h.tracks (by
    rw [length_slice h.right_le]
    omega) s[right]
  rw [← slice_succ hle hc] at htracks
  refine ⟨counts₁, henter, ?_⟩
  by_cases hfull : right + 1 - left = t.length
  · rcases permShrink_full hneed hne hlt hmax (by omega) hfull htracks with
      hfound | ⟨counts', hrun, htracks', hnot⟩
    · exact Or.inl hfound
    · refine Or.inr ⟨left + 1, counts', hrun, by omega, hlt, htracks', Or.inr (by omega),
        by omega, fun i j hij hj hperm => ?_⟩
      by_cases hold : j ≤ right
      · exact h.none i j hij hold hperm
      · obtain rfl : j = right + 1 := by omega
        have heq := left_eq_of_perm hlt hij hperm
        obtain rfl : i = left := by omega
        exact hnot hperm
  · -- The window still has fewer characters than `t`, and nothing has gone out yet.
    have hwide := h.wide
    refine Or.inr ⟨left, counts₁, permShrink_narrow (by omega) (by omega) hmax, by omega, hlt,
      htracks, by omega, by omega, fun i j hij hj hperm => ?_⟩
    by_cases hold : j ≤ right
    · exact h.none i j hij hold hperm
    · obtain rfl : j = right + 1 := by omega
      have heq := left_eq_of_perm hlt hij hperm
      omega

/-- The outer loop returns true when it finds a permutation, false at the end of `s`, and overflows
when `s` goes on beyond the range of `int`. -/
theorem permLoop_spec (hneed : Needs t need) (hne : t ≠ []) (h : PermInv t s right left counts)
    (hright : right < 2^31) :
    (permLoop s need t.length right left counts = some true ∧
        ∃ i j, i ≤ j ∧ j ≤ s.length ∧ j < 2^31 ∧ (slice s i j).Perm t) ∨
      (s.length < 2^31 ∧ permLoop s need t.length right left counts = some false ∧
        ∀ i j, i ≤ j → j ≤ s.length → ¬ (slice s i j).Perm t) ∨
      (2^31 ≤ s.length ∧ permLoop s need t.length right left counts = none ∧
        ∀ i j, i ≤ j → j < 2^31 → ¬ (slice s i j).Perm t) := by
  induction hk : s.length - right generalizing right left counts with
  | zero =>
    obtain rfl : right = s.length := Nat.le_antisymm h.right_le (by omega)
    rw [permLoop, if_neg (Nat.lt_irrefl _)]
    exact Or.inr (Or.inl ⟨hright, rfl, h.none⟩)
  | succ k ih =>
    have hlt : right < s.length := by omega
    have hc : s[right]? = some s[right] := List.getElem?_eq_getElem hlt
    rw [permLoop, if_pos hlt, hc, Option.bind_some]
    rcases checkInt_succ_cases right with ⟨hge, hcheck⟩ | ⟨hmax, hcheck⟩
    · rw [hcheck, Option.bind_none]
      exact Or.inr (Or.inr ⟨by omega, rfl, fun i j hij hj => h.none i j hij (by omega)⟩)
    · rw [hcheck, Option.bind_some]
      obtain ⟨counts₁, henter, hcases⟩ := permStep_spec hneed hne h hlt hmax
      rw [henter, Option.bind_some]
      rcases hcases with ⟨hfound, hperm⟩ | ⟨left', counts', hrun, h'⟩
      · rw [hfound]
        exact Or.inl ⟨rfl, left, right + 1, Nat.le_succ_of_le h.left_le, hlt, hmax, hperm⟩
      · rw [hrun]
        exact ih h' hmax (by omega)

/-! ## The result -/

/-- The result is true exactly when some part of `s` is a permutation of `t`. -/
def Decides (t s : List UInt8) : Prop :=
  ∃ b, permutation_in_string t s = some b ∧ (b = true ↔ ∃ w, w <:+: s ∧ w.Perm t)

/-- The invariant holds before the loops. -/
theorem PermInv.init (s : List UInt8) (hne : t ≠ []) : PermInv t s 0 0 .init where
  left_le := le_rfl
  right_le := Nat.zero_le _
  tracks := by
    rw [slice_self]
    exact tracks_init t
  wide := Or.inl rfl
  narrow := List.length_pos_iff.mpr hne
  none i j hij hj hperm := by
    have heq := left_eq_of_perm (Nat.zero_le _) (by omega) ((Nat.le_zero.mp hj) ▸ hperm)
    have hpos := List.length_pos_iff.mpr hne
    omega

/-- What is returned for a `t` that is not empty and that can be counted. -/
theorem permutation_in_string_spec (hne : t ≠ []) (hcount : ∀ c, t.count c < 2^31) :
    (permutation_in_string t s = some true ∧ ∃ w, w <:+: s.take (2^31 - 1) ∧ w.Perm t) ∨
      (s.length < 2^31 ∧ permutation_in_string t s = some false ∧ ∀ w, w <:+: s → ¬ w.Perm t) ∨
      (2^31 ≤ s.length ∧ permutation_in_string t s = none ∧
        ∀ w, w <:+: s.take (2^31 - 1) → ¬ w.Perm t) := by
  obtain ⟨need, hneed⟩ := IntMap.countAll_isSome hcount
  rw [permutation_in_string, hneed, Option.bind_some]
  have hlen : (s.take (2^31 - 1)).length = min (2^31 - 1) s.length := List.length_take
  rcases permLoop_spec (needs_of_countAll hneed) hne (PermInv.init s hne) (by omega) with
    ⟨hrun, i, j, hij, hj, hmax, hperm⟩ | ⟨hs, hrun, hnone⟩ | ⟨hs, hrun, hnone⟩
  · refine Or.inl ⟨hrun, slice s i j, isInfix_iff_slice.mpr ⟨i, j, hij, by omega, ?_⟩, hperm⟩
    rw [slice_take (by omega)]
  · refine Or.inr (Or.inl ⟨hs, hrun, fun w hw => ?_⟩)
    obtain ⟨i, j, hij, hj, rfl⟩ := isInfix_iff_slice.mp hw
    exact hnone i j hij hj
  · refine Or.inr (Or.inr ⟨hs, hrun, fun w hw => ?_⟩)
    obtain ⟨i, j, hij, hj, rfl⟩ := isInfix_iff_slice.mp hw
    rw [slice_take (by omega)]
    exact hnone i j hij (by omega)

/-- Nothing is returned when a count overflows. -/
theorem permutation_in_string_eq_none {c : UInt8} (hc : 2^31 ≤ t.count c) :
    permutation_in_string t s = none := by
  rw [permutation_in_string, IntMap.countAll_eq_none hc, Option.bind_none]

/-- A result comes from counts that do not overflow. -/
theorem count_lt_of_permutation {b : Bool} (h : permutation_in_string t s = some b) (c : UInt8) :
    t.count c < 2^31 := by
  by_contra hcon
  rw [permutation_in_string_eq_none (not_lt.mp hcon)] at h
  exact Option.some_ne_none _ h.symm

/-- The result is right exactly when no count overflows, and `s` has fewer than `2^31` characters or
has a permutation of `t` among the first `2^31 - 1`. -/
theorem decides_iff (t s : List UInt8) (hne : t ≠ []) :
    Decides t s ↔ (∀ c, t.count c < 2^31) ∧
      (s.length < 2^31 ∨ ∃ w, w <:+: s.take (2^31 - 1) ∧ w.Perm t) := by
  constructor
  · rintro ⟨b, hrun, -⟩
    have hcount := count_lt_of_permutation hrun
    refine ⟨hcount, ?_⟩
    rcases permutation_in_string_spec (s := s) hne hcount with
      ⟨-, hfound⟩ | ⟨hs, -⟩ | ⟨-, hnone, -⟩
    · exact Or.inr hfound
    · exact Or.inl hs
    · rw [hrun] at hnone
      exact absurd hnone (Option.some_ne_none _)
  · rintro ⟨hcount, hcases⟩
    rcases permutation_in_string_spec (s := s) hne hcount with
      ⟨hrun, w, hw, hperm⟩ | ⟨-, hrun, hnone⟩ | ⟨hs, -, hnone⟩
    · have hinfix : w <:+: s := hw.trans (List.take_prefix _ _).isInfix
      exact ⟨true, hrun, iff_of_true rfl ⟨w, hinfix, hperm⟩⟩
    · exact ⟨false, hrun, iff_of_false Bool.false_ne_true fun ⟨w, hw, hperm⟩ => hnone w hw hperm⟩
    · rcases hcases with hlt | ⟨w, hw, hperm⟩
      · omega
      · exact absurd hperm (hnone w hw)

/-- `decides_iff` for the strings `"ab"` and `"cba"`. -/
theorem decides_ab : Decides [97, 98] [99, 98, 97] :=
  (decides_iff [97, 98] [99, 98, 97] (List.cons_ne_nil _ _)).mpr
    ⟨fun c => List.count_le_length.trans_lt (by decide), Or.inl (by decide)⟩

/-- For `2^31` characters of another kind, nothing is returned. -/
theorem not_decides_zeros : ¬ ∀ t s : List UInt8, t ≠ [] → Decides t s := by
  intro hall
  obtain ⟨b, hrun, -⟩ := hall [1] (List.replicate (2^31) 0) (List.cons_ne_nil _ _)
  rcases permutation_in_string_spec (s := List.replicate (2^31) 0) (List.cons_ne_nil 1 [])
    (count_lt_of_permutation hrun) with ⟨-, w, hw, hperm⟩ | ⟨hlt, -⟩ | ⟨-, hnone, -⟩
  · have hmem : (1 : UInt8) ∈ w := hperm.mem_iff.mpr List.mem_cons_self
    have hzero := List.eq_of_mem_replicate (List.mem_of_mem_take (hw.subset hmem))
    exact absurd hzero (by decide)
  · rw [List.length_replicate] at hlt
    exact absurd hlt (Nat.lt_irrefl _)
  · rw [hrun] at hnone
    exact Option.some_ne_none _ hnone

/-! ## Totality -/

/-- Both functions end, and read `s` only at its indices. -/
def Total (s t : List UInt8) : Prop :=
  (minimumWindowSubstring s t).isSome ∧ (permutation_in_string t s).isSome

/-- With nothing needed, the inner loop of `minimumWindowSubstring` runs beyond the end of `s`. -/
theorem shrink_of_empty (hkeys : need.keys = ∅) (st : MinState) (hvalid : st.counts.valid = 0) :
    shrink s need right st = none := by
  induction hk : s.length - st.left using Nat.strong_induction_on generalizing st with
  | _ k ih =>
    have hsize : toSize st.counts.valid = need.size := by
      rw [hvalid, IntMap.size, hkeys]
      rfl
    rw [shrink_eq hsize]
    cases hd : s[st.left]? with
    | none => rfl
    | some d =>
      obtain ⟨hlt, -⟩ := List.getElem?_eq_some_iff.mp hd
      rw [Option.bind_some, leave, hkeys, if_neg (Finset.notMem_empty d), Option.bind_some]
      cases checkInt ((st.left : ℤ) + 1) with
      | none => rfl
      | some _ => exact ih _ (by dsimp only; omega) _ hvalid rfl

/-- With an empty `t` and a nonempty `s`, `minimumWindowSubstring` runs beyond the end of `s`. -/
theorem minimumWindowSubstring_nil (hs : s ≠ []) : minimumWindowSubstring s [] = none := by
  have hlt : 0 < s.length := List.length_pos_iff.mpr hs
  have hc : s[0]? = some s[0] := List.getElem?_eq_getElem hlt
  have hcount : IntMap.countAll ([] : List UInt8) = some .empty := rfl
  have hkeys : (IntMap.empty : IntMap UInt8).keys = ∅ := rfl
  rw [minimumWindowSubstring, hcount, Option.bind_some, minLoop, if_pos hlt, hc, Option.bind_some,
    enter, hkeys, if_neg (Finset.notMem_empty _), Option.bind_some]
  cases checkInt (((0 : ℕ) : ℤ) + 1) with
  | none => rfl
  | some _ => rw [Option.bind_some, shrink_of_empty hkeys _ rfl, Option.bind_none, Option.bind_none]

/-- With an empty `s`, both functions end at once. -/
theorem total_nil (hcount : ∀ c, t.count c < 2^31) : Total [] t := by
  have hlen : ¬ 0 < ([] : List UInt8).length := Nat.lt_irrefl 0
  obtain ⟨need, hneed⟩ := IntMap.countAll_isSome hcount
  constructor
  · rw [minimumWindowSubstring, hneed, Option.bind_some, minLoop, if_neg hlen]
    rfl
  · rw [permutation_in_string, hneed, Option.bind_some, permLoop, if_neg hlen]
    rfl

/-- Both functions end, inside `s`, exactly when no count and no position overflows, and `t` is not
empty or `s` is. -/
theorem total_iff (s t : List UInt8) :
    Total s t ↔ (∀ c, t.count c < 2^31) ∧ s.length < 2^31 ∧ (s = [] ∨ t ≠ []) := by
  constructor
  · rintro ⟨hmin, -⟩
    have hdefined : ¬ ((∃ c, 2^31 ≤ t.count c) ∨ 2^31 ≤ s.length) := by
      intro hover
      rw [minimumWindowSubstring_eq_none hover] at hmin
      exact Bool.false_ne_true hmin
    rw [not_or, not_exists, not_le] at hdefined
    refine ⟨fun c => not_le.mp (hdefined.1 c), hdefined.2, ?_⟩
    by_contra hcon
    rw [not_or, not_not] at hcon
    rw [hcon.2, minimumWindowSubstring_nil hcon.1] at hmin
    exact Bool.false_ne_true hmin
  · rintro ⟨hcount, hs, rfl | hne⟩
    · exact total_nil hcount
    · constructor
      · obtain ⟨r, hrun, -⟩ := minimumWindowSubstring_spec hne hcount hs
        rw [hrun]
        rfl
      · rcases permutation_in_string_spec (s := s) hne hcount with
          ⟨hrun, -⟩ | ⟨-, hrun, -⟩ | ⟨hlong, -⟩
        · rw [hrun]
          rfl
        · rw [hrun]
          rfl
        · omega

/-- For the strings `"a"` and `""`, `minimumWindowSubstring` runs beyond the end. -/
theorem not_total_nil : ¬ ∀ s t : List UInt8, Total s t := by
  intro hall
  have hmin := (hall [97] []).1
  rw [minimumWindowSubstring_nil (List.cons_ne_nil _ _)] at hmin
  exact Bool.false_ne_true hmin

end CxxPandora.Labuladong.SlidingWindow
