import CxxPandora.Lib.Relay
import CxxPandora.Lib.Words

/-!
# A file copy by `splice`

`linux/zerocopy/splice/from_file/to_file`. Each pass of the loop moves bytes from the input file to
a pipe and from the pipe to the output file, and counts the bytes that it asks for, 64 KiB of 1 GiB,
whatever the two calls of `splice` return. The second call of a pass that finds the pipe empty
blocks, since the program itself holds the write end. `trueCopy_iff` says for which counts the copy
ends and is exact: for those that bring the last bytes to the output file in the very last pass.
-/

namespace CxxPandora.Zerocopy

open Lib

/-! ## The model -/

/-- `len`, when the loop starts. -/
def totalLen : ℕ := 1024 * 1024 * 1024

/-- `size`, when the loop starts. -/
def spliceSize : ℕ := 65536

/-- How many bytes the two calls of `splice` of each pass move, if there are as many: at least one,
and no more than are asked for. -/
structure SpliceCounts where
  r : ℕ → ℕ
  e : ℕ → ℕ
  r_bounds : ∀ i, 0 < r i ∧ r i ≤ spliceSize
  e_bounds : ∀ i, 0 < e i ∧ e i ≤ spliceSize

/-- The offset of the input file, the bytes in the pipe and the output file. -/
@[ext]
structure Files where
  offIn : ℕ
  pipe : List UInt8
  out : List UInt8
  deriving DecidableEq, Repr

/-- `splice(fileno(in_file), &off_in, pipefd[1], NULL, size, ..)`: nothing at the file's end. -/
def spliceIn (content : List UInt8) (count size : ℕ) (s : Files) : Files :=
  let bytes := (content.drop s.offIn).take (min count size)
  { s with offIn := s.offIn + bytes.length, pipe := s.pipe ++ bytes }

/-- `splice(pipefd[0], NULL, fileno(out_file), &off_out, size, ..)`; `none` when the pipe is empty,
and the call blocks. -/
def spliceOut (count size : ℕ) (s : Files) : Option Files :=
  if s.pipe = [] then none
  else
    let n := min count size
    some { s with pipe := s.pipe.drop n, out := s.out ++ s.pipe.take n }

/-- The loop, from pass `i` on; `none` when it blocks. -/
def spliceLoop (content : List UInt8) (c : SpliceCounts) (i len size : ℕ) (hsize : 0 < size)
    (s : Files) : Option Files :=
  if hlen : 0 < len then
    -- `if (len < size) size = len;`
    let size' := min len size
    (spliceOut (c.e i) size' (spliceIn content (c.r i) size' s)).bind
      (spliceLoop content c (i + 1) (len - size') size' (Nat.lt_min.mpr ⟨hlen, hsize⟩))
  else some s
termination_by len

/-- The copy of a file; `none` when it never ends. -/
def spliceCopy (content : List UInt8) (c : SpliceCounts) : Option Files :=
  spliceLoop content c 0 totalLen spliceSize (by decide) ⟨0, [], []⟩

/-- The copy ends, and the output file is the input file up to 1 GiB. -/
def TrueCopy (content : List UInt8) (c : SpliceCounts) : Prop :=
  ∃ s, spliceCopy content c = some s ∧ s.out = content.take totalLen

/-! ## The passes -/

/-- The files after some passes that did not block: the input file up to what has been relayed is in
the output file, and from there up to what has been taken in it is in the pipe. -/
def filesAfter (content : List UInt8) (c : SpliceCounts) (k : ℕ) : Files where
  offIn := taken content.length c.r k
  pipe := (content.take (taken content.length c.r k)).drop (relayed content.length c.r c.e k)
  out := content.take (relayed content.length c.r c.e k)

/-- Bytes taken from a list, and up to `n` more: as many as there are. -/
theorem take_append_take_drop {α : Type*} (l : List α) (a n : ℕ) :
    l.take a ++ (l.drop a).take n = l.take (a + min n (l.length - a)) := by
  have hmin : (l.drop a).take n = (l.drop a).take (min n (l.length - a)) := by
    rw [List.take_eq_take_iff, List.length_drop]
    omega
  rw [hmin, ← List.take_add]

/-- No more is taken in than the file has. -/
theorem taken_le (length : ℕ) (r : ℕ → ℕ) (k : ℕ) : taken length r k ≤ length := by
  rw [taken_eq]
  exact Nat.min_le_left _ _

/-- The first call of a pass takes in what its count says, or the rest of the file. -/
theorem spliceIn_filesAfter (content : List UInt8) (c : SpliceCounts) (k : ℕ) :
    spliceIn content (c.r k) spliceSize (filesAfter content c k) =
      { filesAfter content c k with
        offIn := taken content.length c.r (k + 1)
        pipe := (content.take (taken content.length c.r (k + 1))).drop
          (relayed content.length c.r c.e k) } := by
  have hr : min (c.r k) spliceSize = c.r k := Nat.min_eq_left (c.r_bounds k).2
  have hle : relayed content.length c.r c.e k ≤ taken content.length c.r k := relayed_le_taken k
  have htaken := taken_le content.length c.r k
  have hlen : relayed content.length c.r c.e k ≤
      (content.take (taken content.length c.r k)).length := by
    rw [List.length_take_of_le htaken]
    exact hle
  rw [spliceIn, hr]
  ext1
  · show taken content.length c.r k + ((content.drop (taken content.length c.r k)).take _).length =
      _
    rw [List.length_take, List.length_drop, taken]
  · show (content.take (taken content.length c.r k)).drop (relayed content.length c.r c.e k) ++
      (content.drop (taken content.length c.r k)).take (c.r k) = _
    rw [← List.drop_append_of_le_length hlen, take_append_take_drop, ← taken]
  · rfl

/-- What the second call of a pass leaves in the pipe. -/
theorem pipe_filesAfter_succ (content : List UInt8) (c : SpliceCounts) (k : ℕ) :
    (content.take (taken content.length c.r (k + 1))).drop
        (relayed content.length c.r c.e k + c.e k) =
      (filesAfter content c (k + 1)).pipe := by
  have hlen : (content.take (taken content.length c.r (k + 1))).length =
      taken content.length c.r (k + 1) :=
    List.length_take_of_le (taken_le content.length c.r (k + 1))
  rw [filesAfter, relayed]
  rcases Nat.le_total (c.e k)
    (taken content.length c.r (k + 1) - relayed content.length c.r c.e k) with hle | hge
  · rw [Nat.min_eq_left hle]
  · rw [Nat.min_eq_right hge, List.drop_eq_nil_of_le (by omega),
      List.drop_eq_nil_of_le (by omega)]

/-- What it has written, with what was written before. -/
theorem out_filesAfter_succ (content : List UInt8) (c : SpliceCounts) {k : ℕ}
    (hlt : relayed content.length c.r c.e k < taken content.length c.r (k + 1)) :
    content.take (relayed content.length c.r c.e k) ++
        ((content.take (taken content.length c.r (k + 1))).drop
          (relayed content.length c.r c.e k)).take (c.e k) =
      (filesAfter content c (k + 1)).out := by
  have hlen : (content.take (taken content.length c.r (k + 1))).length =
      taken content.length c.r (k + 1) :=
    List.length_take_of_le (taken_le content.length c.r (k + 1))
  have hpre : content.take (relayed content.length c.r c.e k) =
      (content.take (taken content.length c.r (k + 1))).take
        (relayed content.length c.r c.e k) := by
    rw [List.take_take, Nat.min_eq_left (Nat.le_of_lt hlt)]
  rw [hpre, take_append_take_drop, hlen, ← relayed, List.take_take,
    Nat.min_eq_left (relayed_le_taken (k + 1))]
  rfl

/-- A pass blocks when nothing is left in the pipe, and otherwise relays what its counts say. -/
theorem pass_eq (content : List UInt8) (c : SpliceCounts) (k : ℕ) :
    spliceOut (c.e k) spliceSize (spliceIn content (c.r k) spliceSize (filesAfter content c k)) =
      if relayed content.length c.r c.e k < taken content.length c.r (k + 1) then
        some (filesAfter content c (k + 1))
      else none := by
  have he : min (c.e k) spliceSize = c.e k := Nat.min_eq_left (c.e_bounds k).2
  have htaken := taken_le content.length c.r (k + 1)
  have hlen : (content.take (taken content.length c.r (k + 1))).length =
      taken content.length c.r (k + 1) := List.length_take_of_le htaken
  rw [spliceIn_filesAfter, spliceOut]
  simp only [List.drop_eq_nil_iff, hlen, he, List.drop_drop]
  split_ifs with hempty hlt hlt
  · omega
  · rfl
  · congr 1
    ext1
    · rfl
    · exact pipe_filesAfter_succ content c k
    · exact out_filesAfter_succ content c hlt
  · omega

/-- The loop, with some passes to go, ends when none of them blocks. -/
theorem spliceLoop_eq (content : List UInt8) (c : SpliceCounts) (n k : ℕ) (h : 0 < spliceSize) :
    spliceLoop content c k (n * spliceSize) spliceSize h (filesAfter content c k) =
      if ∀ i, k ≤ i → i < k + n →
        relayed content.length c.r c.e i < taken content.length c.r (i + 1) then
        some (filesAfter content c (k + n))
      else none := by
  induction n generalizing k with
  | zero =>
    rw [spliceLoop, dif_neg (by omega), if_pos (fun i hi hlt => by omega), Nat.add_zero]
  | succ n ih =>
    have hsize : min ((n + 1) * spliceSize) spliceSize = spliceSize :=
      Nat.min_eq_right (Nat.le_mul_of_pos_left _ (Nat.succ_pos n))
    have hlen : (n + 1) * spliceSize - spliceSize = n * spliceSize := by
      rw [Nat.succ_mul, Nat.add_sub_cancel]
    rw [spliceLoop, dif_pos (Nat.mul_pos (Nat.succ_pos n) h)]
    simp only [hsize, hlen]
    rw [pass_eq]
    by_cases hk : relayed content.length c.r c.e k < taken content.length c.r (k + 1)
    · have hnext : k + (n + 1) = k + 1 + n := by omega
      have hiff : (∀ i, k ≤ i → i < k + 1 + n →
          relayed content.length c.r c.e i < taken content.length c.r (i + 1)) ↔
            ∀ i, k + 1 ≤ i → i < k + 1 + n →
              relayed content.length c.r c.e i < taken content.length c.r (i + 1) := by
        refine ⟨fun hall i hi hlt => hall i (by omega) hlt, fun hall i hi hlt => ?_⟩
        rcases Nat.eq_or_lt_of_le hi with rfl | hlt'
        · exact hk
        · exact hall i hlt' hlt
      rw [if_pos hk, Option.bind_some, ih (k + 1), hnext]
      simp only [hiff]
    · rw [if_neg hk, if_neg fun hall => hk (hall k (Nat.le_refl k) (by omega))]
      rfl

/-! ## The copies that end and are exact -/

/-- The number of passes. -/
def passes : ℕ := 16384

/-- What is relayed does not decrease. -/
theorem relayed_mono (length : ℕ) (r e : ℕ → ℕ) {j k : ℕ} (h : j ≤ k) :
    relayed length r e j ≤ relayed length r e k := by
  induction h with
  | refl => exact Nat.le_refl _
  | step _ ih => exact Nat.le_trans ih (Nat.le_add_right _ _)

/-- The copy ends when no pass blocks. -/
theorem spliceCopy_eq (content : List UInt8) (c : SpliceCounts) :
    spliceCopy content c =
      if ∀ i < passes, relayed content.length c.r c.e i < taken content.length c.r (i + 1) then
        some (filesAfter content c passes)
      else none := by
  have hlen : totalLen = passes * spliceSize := by decide
  have hstart : filesAfter content c 0 = ⟨0, [], []⟩ := by
    simp [filesAfter, taken, relayed]
  have hloop := spliceLoop_eq content c passes 0 (by decide)
  rw [hstart, Nat.zero_add, ← hlen] at hloop
  rw [spliceCopy, hloop]
  simp only [Nat.zero_le, forall_const]

/-- No more is relayed than the passes can let out. -/
theorem relayed_le_mul (length : ℕ) (c : SpliceCounts) (k : ℕ) :
    relayed length c.r c.e k ≤ k * spliceSize := by
  induction k with
  | zero => exact Nat.zero_le _
  | succ k ih =>
    have he := (c.e_bounds k).2
    rw [relayed, Nat.succ_mul]
    omega

/-- As long as something is left to relay, no pass blocks. -/
theorem relayed_lt_taken {length : ℕ} {c : SpliceCounts} {k : ℕ}
    (h : relayed length c.r c.e k < length) :
    relayed length c.r c.e k < taken length c.r (k + 1) := by
  have hle : relayed length c.r c.e k ≤ taken length c.r k := relayed_le_taken k
  have hr := (c.r_bounds k).1
  rw [taken]
  omega

/-- The copy ends and is exact if and only if the last bytes of the file, up to 1 GiB, are relayed
in the last pass. -/
theorem trueCopy_iff_relayed (content : List UInt8) (c : SpliceCounts) :
    TrueCopy content c ↔
      min content.length totalLen ≤ relayed content.length c.r c.e passes ∧
        relayed content.length c.r c.e (passes - 1) < min content.length totalLen := by
  have htaken := taken_le content.length c.r passes
  have hle : relayed content.length c.r c.e passes ≤ taken content.length c.r passes :=
    relayed_le_taken passes
  constructor
  · rintro ⟨s, hs, hout⟩
    rw [spliceCopy_eq] at hs
    split_ifs at hs with hall
    have hlen := congrArg List.length hout
    rw [← Option.some.inj hs, filesAfter, List.length_take, List.length_take] at hlen
    have hlast := hall (passes - 1) (by decide)
    have hlet : relayed content.length c.r c.e passes =
        relayed content.length c.r c.e (passes - 1) +
          min (c.e (passes - 1)) (taken content.length c.r passes -
            relayed content.length c.r c.e (passes - 1)) := rfl
    have hpos := (c.e_bounds (passes - 1)).1
    have hpasses : passes - 1 + 1 = passes := rfl
    rw [hpasses] at hlast
    omega
  · rintro ⟨hall, hlast⟩
    have hmul := relayed_le_mul content.length c passes
    have htotal : passes * spliceSize = totalLen := by decide
    have hend : ∀ i < passes, relayed content.length c.r c.e i <
        taken content.length c.r (i + 1) := by
      intro i hi
      have hmono := relayed_mono content.length c.r c.e (Nat.le_sub_one_of_lt hi)
      exact relayed_lt_taken (by omega)
    refine ⟨filesAfter content c passes, ?_, ?_⟩
    · rw [spliceCopy_eq, if_pos hend]
    · show content.take (relayed content.length c.r c.e passes) = content.take totalLen
      rw [List.take_eq_take_iff]
      omega

/-- The copy ends and is exact if and only if the counts of all passes carry the file, up to 1 GiB,
and those of all passes but the last do not. -/
theorem trueCopy_iff (content : List UInt8) (c : SpliceCounts) :
    TrueCopy content c ↔
      Carries c.r c.e passes (min content.length totalLen) ∧
        ¬Carries c.r c.e (passes - 1) (min content.length totalLen) := by
  have hle : min content.length totalLen ≤ content.length := Nat.min_le_left _ _
  rw [trueCopy_iff_relayed, ← le_relayed_iff hle, ← le_relayed_iff hle, Nat.not_le]

/-- The copy of an empty file never ends: its first pass finds the pipe empty. -/
theorem spliceCopy_blocks_on_empty :
    ¬∀ (content : List UInt8) (c : SpliceCounts), TrueCopy content c := by
  intro h
  have hall := h [] ⟨fun _ => 1, fun _ => 1, fun _ => by decide, fun _ => by decide⟩
  rw [trueCopy_iff_relayed] at hall
  exact absurd hall.2 (Nat.not_lt_zero _)

end CxxPandora.Zerocopy
