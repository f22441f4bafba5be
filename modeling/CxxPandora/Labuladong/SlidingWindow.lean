import CxxPandora.Lib.IntMap
import CxxPandora.Lib.Slices
import Mathlib.Algebra.Order.Ring.Int

/-!
# What a sliding window counts

`minimumWindowSubstring` and `permutation_in_string` of `algorithms/labuladong/sliding-window` count
alike: `need` has how often each character is in `t`, `window` how often those are in the part of
`s` between `left` and `right`, and `valid` how many of them are there often enough. `valid` changes
only where the two counts are equal. `enter_spec` and `leave_spec` show that it is right all the
same, whatever surplus the window has.
-/

namespace CxxPandora.Labuladong.SlidingWindow

open Lib

/-- What the loops keep of the window. -/
structure Counts where
  /-- `window`. -/
  window : IntMap UInt8
  /-- `valid`. -/
  valid : ℤ

/-- Before the loops. -/
def Counts.init : Counts := ⟨.empty, 0⟩

/-- The update for the character that comes in. -/
def enter (need : IntMap UInt8) (c : UInt8) (counts : Counts) : Option Counts :=
  if c ∈ need.keys then
    (counts.window.add c 1).bind fun window =>
      if need.val c = window.val c then
        (checkInt (counts.valid + 1)).map fun valid => ⟨window, valid⟩
      else some ⟨window, counts.valid⟩
  else some counts

/-- The update for the character that goes out. -/
def leave (need : IntMap UInt8) (d : UInt8) (counts : Counts) : Option Counts :=
  if d ∈ need.keys then
    (if counts.window.val d = need.val d then checkInt (counts.valid - 1)
      else some counts.valid).bind fun valid =>
        (counts.window.add d (-1)).map fun window => ⟨window, valid⟩
  else some counts

/-- What `need` has once `t` has been counted. -/
structure Needs (t : List UInt8) (need : IntMap UInt8) : Prop where
  /-- The characters of `t` are its keys. -/
  keys : need.keys = t.toFinset
  /-- They are counted. -/
  val : ∀ c, need.val c = t.count c

/-- What `window` and `valid` have when the window is `w`. -/
structure Tracks (t w : List UInt8) (counts : Counts) : Prop where
  /-- The needed characters are counted. -/
  window : ∀ c ∈ t, counts.window.val c = w.count c
  /-- Those that are there often enough are counted. -/
  valid : counts.valid = met t w

/-- The counting loop gives `need`. -/
theorem needs_of_countAll {t : List UInt8} {need : IntMap UInt8}
    (h : IntMap.countAll t = some need) : Needs t need :=
  ⟨(IntMap.countAll_spec h).1, fun c => ((IntMap.countAll_spec h).2 c).1⟩

/-- Before the loops, the window is empty. -/
theorem tracks_init (t : List UInt8) : Tracks t [] Counts.init where
  window _ _ := rfl
  valid := by
    have hle := met_le_length t []
    rw [List.length_nil, Nat.le_zero] at hle
    rw [hle]
    rfl

/-- Everything needed is in the window when `valid` is the size of `need`. -/
theorem Tracks.covers_iff {t w : List UInt8} {need : IntMap UInt8} {counts : Counts}
    (hneed : Needs t need) (h : Tracks t w counts) (hw : w.length < 2^31) :
    toSize counts.valid = need.size ↔ t.Subperm w := by
  have hle := met_le_length t w
  rw [h.valid, toSize_natCast (by omega), IntMap.size, hneed.keys]
  exact met_eq_card_iff

/-- The update for a character that comes in. -/
theorem enter_spec {t w : List UInt8} {need : IntMap UInt8} {counts : Counts}
    (hneed : Needs t need) (h : Tracks t w counts) (hw : w.length < 2^31 - 1) (c : UInt8) :
    ∃ counts', enter need c counts = some counts' ∧ Tracks t (w ++ [c]) counts' := by
  have hmet := met_concat t w c
  unfold enter
  by_cases hc : c ∈ t
  · have hval := h.window c hc
    have hcount : w.count c ≤ w.length := List.count_le_length
    have hle := met_le_length t w
    have hadd : counts.window.add c 1 = some (counts.window.set c (w.count c + 1)) := by
      rw [IntMap.add_eq _ _ (by omega) (by omega), hval]
    have hvalid : checkInt (counts.valid + 1) = some (counts.valid + 1) := by
      rw [h.valid]
      exact checkInt_eq (by omega) (by omega)
    have hwindow : ∀ b ∈ t,
        (counts.window.set c (w.count c + 1)).val b = (w ++ [c]).count b := by
      intro b hb
      rw [List.count_append]
      rcases eq_or_ne b c with rfl | hne
      · rw [IntMap.val_set_self, List.count_singleton_self, Int.natCast_add, Int.natCast_one]
      · rw [IntMap.val_set_of_ne _ _ hne, h.window b hb, List.count_singleton,
          if_neg (by simpa using hne.symm), Nat.add_zero]
    rw [if_pos (by rwa [hneed.keys, List.mem_toFinset]), hadd, Option.bind_some,
      IntMap.val_set_self, hneed.val]
    by_cases heq : t.count c = w.count c + 1
    · rw [if_pos (by omega), hvalid]
      rw [if_pos ⟨hc, heq⟩] at hmet
      exact ⟨_, rfl, hwindow, by rw [hmet, Int.natCast_add, Int.natCast_one, ← h.valid]⟩
    · rw [if_neg (by omega)]
      rw [if_neg fun hcon => heq hcon.2, Nat.add_zero] at hmet
      exact ⟨_, rfl, hwindow, by rw [hmet, ← h.valid]⟩
  · rw [if_neg (by rwa [hneed.keys, List.mem_toFinset])]
    rw [if_neg fun hcon => hc hcon.1, Nat.add_zero] at hmet
    refine ⟨counts, rfl, fun b hb => ?_, by rw [hmet, ← h.valid]⟩
    have hne : b ≠ c := fun heq => hc (heq ▸ hb)
    rw [h.window b hb, List.count_append, List.count_singleton, if_neg (by simpa using hne.symm),
      Nat.add_zero]

/-- The update for a character that goes out. -/
theorem leave_spec {t w : List UInt8} {need : IntMap UInt8} {counts : Counts} {d : UInt8}
    (hneed : Needs t need) (h : Tracks t (d :: w) counts) (hw : w.length < 2^31 - 1) :
    ∃ counts', leave need d counts = some counts' ∧ Tracks t w counts' := by
  have hmet := met_cons t w d
  unfold leave
  by_cases hd : d ∈ t
  · have hval := h.window d hd
    rw [List.count_cons_self] at hval
    have hcount : w.count d ≤ w.length := List.count_le_length
    have hle := met_le_length t w
    have hadd : counts.window.add d (-1) = some (counts.window.set d (w.count d)) := by
      rw [IntMap.add_eq _ _ (by omega) (by omega), hval]
      congr 2
      omega
    have hwindow : ∀ b ∈ t, (counts.window.set d (w.count d)).val b = w.count b := by
      intro b hb
      rcases eq_or_ne b d with rfl | hne
      · rw [IntMap.val_set_self]
      · rw [IntMap.val_set_of_ne _ _ hne, h.window b hb, List.count_cons_of_ne hne.symm]
    rw [if_pos (by rwa [hneed.keys, List.mem_toFinset]), hval, hneed.val]
    have hv := h.valid
    by_cases heq : t.count d = w.count d + 1
    · rw [if_pos ⟨hd, heq⟩] at hmet
      have hvalid : checkInt (counts.valid - 1) = some (met t w : ℤ) := by
        rw [hv, hmet, Int.natCast_add, Int.natCast_one, Int.add_sub_cancel]
        exact checkInt_eq (by omega) (by omega)
      rw [if_pos (by omega), hvalid, Option.bind_some, hadd]
      exact ⟨_, rfl, hwindow, rfl⟩
    · rw [if_neg fun hcon => heq hcon.2, Nat.add_zero] at hmet
      rw [if_neg (by omega), Option.bind_some, hadd]
      exact ⟨_, rfl, hwindow, by rw [hv, hmet]⟩
  · rw [if_neg (by rwa [hneed.keys, List.mem_toFinset])]
    rw [if_neg fun hcon => hd hcon.1, Nat.add_zero] at hmet
    refine ⟨counts, rfl, fun b hb => ?_, by rw [h.valid, hmet]⟩
    have hne : b ≠ d := fun heq => hd (heq ▸ hb)
    rw [h.window b hb, List.count_cons_of_ne hne.symm]

end CxxPandora.Labuladong.SlidingWindow
