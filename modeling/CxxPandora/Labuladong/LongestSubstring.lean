import CxxPandora.Labuladong.MinimumWindow

/-!
# The longest substring without a repeated character

`lengthOfLongestSubstring` of `algorithms/labuladong/sliding-window/main.cpp`. The left end jumps
behind the last occurrence of the character that comes in, when that is inside the window.
`measures_iff` shows that the length returned is right for strings of fewer than `2^31` characters.

The function also prints a substring of that length, from `index` on. After a jump the window is
shorter than before it, so that the test that would move `index` never succeeds, and the substring
printed is a prefix: `witness_iff` shows when it has no repeated character.
-/

namespace CxxPandora.Labuladong.SlidingWindow

open Lib

/-! ## The source -/

/-- The variables of the loop, but for `right`. -/
structure LongestState where
  /-- `left`. -/
  left : ℤ
  /-- `res`. -/
  res : ℤ
  /-- `len`. -/
  len : ℤ
  /-- `index`. -/
  index : ℤ
  /-- `m`: where each character was last. -/
  m : IntMap UInt8

/-- The jump of the left end when `c` comes in at `right`. -/
def jump (c : UInt8) (right : ℕ) (st : LongestState) : Option LongestState :=
  if c ∈ st.m.keys ∧ st.left ≤ st.m.val c then
    (checkInt (st.m.val c + 1)).map fun left =>
      { st with left := left, index := if st.len ≤ right - left then left else st.index,
                len := right - left }
  else some st

/-- The loop; `none` when it overflows. -/
def longestLoop (s : List UInt8) (right : ℕ) (st : LongestState) : Option LongestState :=
  if right < s.length then
    s[right]?.bind fun c => (jump c right st).bind fun st =>
      (checkInt ((right : ℤ) + 1)).bind fun _ => (checkInt (st.len + 1)).bind fun len =>
        longestLoop s (right + 1)
          { st with m := st.m.set c right, len := len, res := max st.res len }
  else some st
termination_by s.length - right

/-- What is printed; `res` is also returned. -/
structure Longest where
  /-- `res`. -/
  res : ℤ
  /-- `index`. -/
  index : ℤ
  /-- `s.substr(index, res)`. -/
  sub : List UInt8

/-- `lengthOfLongestSubstring`; `none` when it is undefined. -/
def lengthOfLongestSubstring (s : List UInt8) : Option Longest :=
  (longestLoop s 0 ⟨0, 0, 0, 0, .empty⟩).bind fun st =>
    (substr s (toSize st.index) st.res).map fun sub => ⟨st.res, st.index, sub⟩

/-! ## The loop -/

/-- What holds while the window is from `left` to `right`. -/
structure LongestInv (s : List UInt8) (right left : ℕ) (st : LongestState) : Prop where
  /-- The left end. -/
  left_eq : st.left = left
  /-- It is not beyond the right end. -/
  left_le : left ≤ right
  /-- The right end is in `s`. -/
  right_le : right ≤ s.length
  /-- The length of the window. -/
  len : st.len = (right : ℤ) - left
  /-- The index has not been moved. -/
  index : st.index = 0
  /-- The window has no repeated character. -/
  nodup : (slice s left right).Nodup
  /-- A wider one has. -/
  dup : ∀ i < left, ¬ (slice s i right).Nodup
  /-- Each character is recorded where it was last. -/
  last : ∀ c ∈ st.m.keys, ∃ k < right, st.m.val c = k ∧ s[k]? = some c ∧ c ∉ slice s (k + 1) right
  /-- Every character so far is recorded. -/
  seen : ∀ k < right, ∀ c, s[k]? = some c → c ∈ st.m.keys
  /-- The result is the length of some part without a repeated character. -/
  sound : ∃ i j, i ≤ j ∧ j ≤ right ∧ (slice s i j).Nodup ∧ st.res = (j : ℤ) - i
  /-- No such part is longer. -/
  best : ∀ i j, i ≤ j → j ≤ right → (slice s i j).Nodup → (j : ℤ) - i ≤ st.res

variable {s : List UInt8} {right left : ℕ} {st : LongestState}

/-- The invariant holds before the loop. -/
theorem LongestInv.init (s : List UInt8) : LongestInv s 0 0 ⟨0, 0, 0, 0, .empty⟩ where
  left_eq := rfl
  left_le := le_rfl
  right_le := Nat.zero_le _
  len := rfl
  index := rfl
  nodup := by
    rw [slice_self]
    exact List.nodup_nil
  dup i hi := absurd hi (Nat.not_lt_zero i)
  last c hc := absurd hc (Finset.notMem_empty c)
  seen k hk := absurd hk (Nat.not_lt_zero k)
  sound := ⟨0, 0, le_rfl, le_rfl, by rw [slice_self]; exact List.nodup_nil, rfl⟩
  best i j hij hj _ := by
    dsimp only
    omega

/-- The left end jumps to where the window with the new character has no repeated one. -/
theorem jump_spec (h : LongestInv s right left st) (hmax : right < 2^31 - 1) {c : UInt8}
    (hc : s[right]? = some c) :
    ∃ left' : ℕ, jump c right st =
        some { st with left := (left' : ℤ), index := 0, len := (right : ℤ) - left' } ∧
      left' ≤ right ∧ (slice s left' (right + 1)).Nodup ∧
      ∀ i < left', ¬ (slice s i (right + 1)).Nodup := by
  have hle := h.left_le
  have hleft := h.left_eq
  have hlen := h.len
  -- The window with the new character.
  have hnodup : ∀ i, i ≤ right → (slice s i right).Nodup → c ∉ slice s i right →
      (slice s i (right + 1)).Nodup := by
    intro i hi hnodup hnot
    rw [slice_succ hi hc, ← List.concat_eq_append]
    exact List.Nodup.concat hnot hnodup
  unfold jump
  by_cases hin : c ∈ st.m.keys ∧ st.left ≤ st.m.val c
  · obtain ⟨k, hk, hval, hget, hafter⟩ := h.last c hin.1
    have hlek : left ≤ k := by omega
    have hcheck : checkInt (st.m.val c + 1) = some ((k + 1 : ℕ) : ℤ) := by
      rw [hval]
      exact checkInt_eq (by omega) (by omega)
    rw [if_pos hin, hcheck, Option.map_some, if_neg (by push_cast; omega), h.index]
    refine ⟨k + 1, rfl, hk, hnodup (k + 1) hk ?_ hafter, fun i hi hdup => ?_⟩
    · exact h.nodup.sublist (slice_sublist (by omega) le_rfl)
    · -- The character is at `k` and at the right end.
      have hmem : c ∈ slice s i right := mem_slice.mpr ⟨k, by omega, hk, hget⟩
      rw [slice_succ (by omega) hc] at hdup
      exact (List.nodup_append.mp hdup).2.2 c hmem c (List.mem_singleton_self c) rfl
  · rw [if_neg hin]
    refine ⟨left, ?_, hle, hnodup left hle h.nodup fun hmem => ?_, fun i hi hdup => ?_⟩
    · rw [← hlen, ← hleft, ← h.index]
    · obtain ⟨k, hlek, hk, hget⟩ := mem_slice.mp hmem
      have hkey := h.seen k hk c hget
      obtain ⟨k', hk', hval, -, hafter⟩ := h.last c hkey
      -- The last occurrence is at `k` or after it, and so inside the window.
      have hle' : k ≤ k' := by
        by_contra hcon
        exact hafter (mem_slice.mpr ⟨k, by omega, hk, hget⟩)
      exact hin ⟨hkey, by omega⟩
    · have hsub : (slice s i right).Sublist (slice s i (right + 1)) :=
        slice_sublist le_rfl (Nat.le_succ right)
      exact h.dup i hi (hdup.sublist hsub)

/-- One pass of the loop, after the jump. -/
theorem LongestInv.step (h : LongestInv s right left st) {c : UInt8} (hc : s[right]? = some c)
    {left' : ℕ} (hle : left' ≤ right) (hnodup : (slice s left' (right + 1)).Nodup)
    (hdup : ∀ i < left', ¬ (slice s i (right + 1)).Nodup) {len : ℤ}
    (hlen : len = (right : ℤ) - left' + 1) :
    LongestInv s (right + 1) left' ⟨left', max st.res len, len, 0, st.m.set c right⟩ where
  left_eq := rfl
  left_le := Nat.le_succ_of_le hle
  right_le := (List.getElem?_eq_some_iff.mp hc).1
  len := by
    push_cast
    omega
  index := rfl
  nodup := hnodup
  dup := hdup
  last b hb := by
    rcases eq_or_ne b c with rfl | hne
    · refine ⟨right, Nat.lt_succ_self right, IntMap.val_set_self _ _ _, hc, ?_⟩
      rw [slice_self]
      exact List.not_mem_nil
    · rw [IntMap.keys_set, Finset.mem_insert] at hb
      obtain ⟨k, hk, hval, hget, hafter⟩ := h.last b (hb.resolve_left hne)
      refine ⟨k, Nat.lt_succ_of_lt hk, ?_, hget, ?_⟩
      · rw [IntMap.val_set_of_ne _ _ hne, hval]
      · rw [slice_succ hk hc, List.mem_append, List.mem_singleton]
        exact not_or.mpr ⟨hafter, hne⟩
  seen k hk b hb := by
    rw [IntMap.keys_set, Finset.mem_insert]
    rcases Nat.lt_succ_iff_lt_or_eq.mp hk with hk | rfl
    · exact Or.inr (h.seen k hk b hb)
    · exact Or.inl (Option.some.inj (hb.symm.trans hc))
  sound := by
    obtain ⟨i, j, hij, hj, hpart, hres⟩ := h.sound
    rcases max_choice st.res len with hmax | hmax
    · exact ⟨i, j, hij, Nat.le_succ_of_le hj, hpart, hmax.trans hres⟩
    · refine ⟨left', right + 1, Nat.le_succ_of_le hle, le_rfl, hnodup, hmax.trans ?_⟩
      push_cast
      omega
  best i j hij hj hpart := by
    dsimp only
    rcases Nat.le_succ_iff.mp hj with hj | rfl
    · exact (h.best i j hij hj hpart).trans (le_max_left _ _)
    · have hi : left' ≤ i := by
        by_contra hcon
        exact hdup i (not_le.mp hcon) hpart
      refine le_trans ?_ (le_max_right _ _)
      push_cast
      omega

/-- The loop ends at the end of `s`. -/
theorem longestLoop_spec (h : LongestInv s right left st) (hs : s.length < 2^31) :
    ∃ st' left', longestLoop s right st = some st' ∧ LongestInv s s.length left' st' := by
  induction hk : s.length - right generalizing right left st with
  | zero =>
    obtain rfl : right = s.length := Nat.le_antisymm h.right_le (by omega)
    rw [longestLoop, if_neg (Nat.lt_irrefl _)]
    exact ⟨st, left, rfl, h⟩
  | succ k ih =>
    have hlt : right < s.length := by omega
    have hc : s[right]? = some s[right] := List.getElem?_eq_getElem hlt
    obtain ⟨left', hjump, hle, hnodup, hdup⟩ := jump_spec h (by omega) hc
    have hcheck := checkInt_succ (n := right) (by omega)
    have hlen : checkInt ((right : ℤ) - left' + 1) = some ((right : ℤ) - left' + 1) :=
      checkInt_eq (by omega) (by omega)
    rw [longestLoop, if_pos hlt, hc, Option.bind_some, hjump, Option.bind_some, hcheck,
      Option.bind_some]
    dsimp only
    rw [hlen, Option.bind_some]
    exact ih (h.step hc hle hnodup hdup rfl) (by omega)

/-- The right end overflows when `s` has `2^31` characters or more. -/
theorem longestLoop_eq_none (hright : right < 2^31) (hs : 2^31 ≤ s.length) :
    longestLoop s right st = none := by
  refine eq_none_of_overflow (longestLoop s) (fun right st hright => ?_) hright
  have hc : s[right]? = some s[right] := List.getElem?_eq_getElem (hright.trans_le hs)
  rw [longestLoop, if_pos (hright.trans_le hs), hc, Option.bind_some]
  cases jump s[right] right st with
  | none => exact Or.inl rfl
  | some st' =>
    rw [Option.bind_some]
    rcases checkInt_succ_cases right with ⟨-, hcheck⟩ | ⟨hlt, hcheck⟩
    · rw [hcheck]
      exact Or.inl rfl
    · rw [hcheck, Option.bind_some]
      cases checkInt (st'.len + 1) with
      | none => exact Or.inl rfl
      | some len => exact Or.inr ⟨hlt, _, rfl⟩

/-! ## The result -/

/-- The lengths of the parts of a string that have no repeated character. -/
def RepeatFree (s : List UInt8) : Set ℕ := {n | ∃ w, w <:+: s ∧ w.Nodup ∧ w.length = n}

/-- What is returned and printed for fewer than `2^31` characters. -/
theorem lengthOfLongestSubstring_spec (hs : s.length < 2^31) :
    ∃ n : ℕ, lengthOfLongestSubstring s = some ⟨n, 0, s.take n⟩ ∧ IsGreatest (RepeatFree s) n := by
  obtain ⟨st, left, hloop, h⟩ := longestLoop_spec (LongestInv.init s) hs
  obtain ⟨i, j, hij, hj, hpart, hres⟩ := h.sound
  have hn : st.res = ((j - i : ℕ) : ℤ) := by omega
  have hindex : toSize st.index = 0 := by
    rw [h.index]
    rfl
  refine ⟨j - i, ?_, ⟨slice s i j, ?_, hpart, length_slice hj⟩, ?_⟩
  · rw [lengthOfLongestSubstring, hloop, Option.bind_some, hindex, substr,
      if_pos (Nat.zero_le _), hn, toSize_natCast (by omega), h.index]
    rfl
  · exact isInfix_iff_slice.mpr ⟨i, j, hij, hj, rfl⟩
  · rintro _ ⟨w, hw, hnodup, rfl⟩
    obtain ⟨i', j', hij', hj', rfl⟩ := isInfix_iff_slice.mp hw
    have hbest := h.best i' j' hij' hj' hnodup
    rw [length_slice hj']
    omega

/-- Nothing is returned for `2^31` characters or more. -/
theorem lengthOfLongestSubstring_eq_none (hs : 2^31 ≤ s.length) :
    lengthOfLongestSubstring s = none := by
  rw [lengthOfLongestSubstring, longestLoop_eq_none (by omega) hs, Option.bind_none]

/-- A result comes from fewer than `2^31` characters. -/
theorem length_lt_of_longest {out : Longest} (h : lengthOfLongestSubstring s = some out) :
    s.length < 2^31 := by
  by_contra hcon
  rw [lengthOfLongestSubstring_eq_none (not_lt.mp hcon)] at h
  exact Option.some_ne_none _ h.symm

/-- The value returned is the greatest length of a part without a repeated character. -/
def Measures (s : List UInt8) : Prop :=
  ∃ out, lengthOfLongestSubstring s = some out ∧
    ∃ n : ℕ, out.res = n ∧ IsGreatest (RepeatFree s) n

/-- It is exactly for fewer than `2^31` characters. -/
theorem measures_iff (s : List UInt8) : Measures s ↔ s.length < 2^31 := by
  constructor
  · rintro ⟨out, hrun, -⟩
    exact length_lt_of_longest hrun
  · intro hs
    obtain ⟨n, hrun, hgreatest⟩ := lengthOfLongestSubstring_spec hs
    exact ⟨_, hrun, n, rfl, hgreatest⟩

/-- For `2^31` characters, nothing is returned. -/
theorem not_measures_zeros : ¬ ∀ s : List UInt8, Measures s := by
  intro hall
  obtain ⟨out, hrun, -⟩ := hall (List.replicate (2^31) 0)
  rw [lengthOfLongestSubstring_eq_none (by rw [List.length_replicate])] at hrun
  exact Option.some_ne_none _ hrun.symm

/-- The substring printed has the length returned and no repeated character. -/
def WitnessRight (s : List UInt8) : Prop :=
  ∃ out, lengthOfLongestSubstring s = some out ∧
    substr s (toSize out.index) out.res = some out.sub ∧ (out.sub.length : ℤ) = out.res ∧
      out.sub.Nodup

/-- It is exactly for fewer than `2^31` characters, when each part without a repeated character has
a prefix as long that has none. -/
theorem witness_iff (s : List UInt8) :
    WitnessRight s ↔
      s.length < 2^31 ∧ ∀ w, w <:+: s → w.Nodup → (s.take w.length).Nodup := by
  constructor
  · rintro ⟨out, hrun, -, -, hnodup⟩
    have hs := length_lt_of_longest hrun
    obtain ⟨n, hrun', hgreatest⟩ := lengthOfLongestSubstring_spec hs
    obtain rfl : out = ⟨n, 0, s.take n⟩ := Option.some.inj (hrun.symm.trans hrun')
    refine ⟨hs, fun w hw hpart => ?_⟩
    have hle : w.length ≤ n := hgreatest.2 ⟨w, hw, hpart, rfl⟩
    have hprefix : s.take w.length <+: s.take n := List.take_prefix_take_left hle
    exact hnodup.sublist hprefix.sublist
  · rintro ⟨hs, hprefix⟩
    obtain ⟨n, hrun, ⟨w, hw, hpart, rfl⟩, -⟩ := lengthOfLongestSubstring_spec hs
    refine ⟨_, hrun, ?_, ?_, hprefix w hw hpart⟩
    · rw [show toSize 0 = 0 from rfl, substr, if_pos (Nat.zero_le _),
        toSize_natCast (hw.length_le.trans_lt (by omega))]
      rfl
    · rw [List.length_take, Nat.min_eq_left hw.length_le]

/-- For the string `"aab"`, the substring printed is `"aa"`. -/
theorem not_witness_aab : ¬ ∀ s : List UInt8, WitnessRight s := by
  intro hall
  obtain ⟨out, hrun, -, -, hnodup⟩ := hall [97, 97, 98]
  obtain ⟨n, hrun', hgreatest⟩ := lengthOfLongestSubstring_spec (length_lt_of_longest hrun)
  obtain rfl : out = ⟨n, 0, [97, 97, 98].take n⟩ := Option.some.inj (hrun.symm.trans hrun')
  have hle : 2 ≤ n := hgreatest.2 ⟨[97, 98], ⟨[97], [], rfl⟩, by decide, rfl⟩
  have hprefix : ([97, 97, 98] : List UInt8).take 2 <+: [97, 97, 98].take n :=
    List.take_prefix_take_left hle
  exact absurd (hnodup.sublist hprefix.sublist) (by decide)

end CxxPandora.Labuladong.SlidingWindow
