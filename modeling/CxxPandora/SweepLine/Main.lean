import CxxPandora.Lib.Area
import CxxPandora.SweepLine.Tree

/-!
# The sweep line

`main` of `dsaax/sweep_line/sweep_line.cpp`: each rectangle gives a segment that opens its interval
at its lower side and one that closes it at its upper side, the segments are sorted by height, and
the area grows by the covered length times the distance to the next height. `area_eq` says that a
defined result is the area of the union of the rectangles, and `main_isSome` that the result is
defined when the arrays and the products fit.
-/

namespace CxxPandora.SweepLine

open Lib MeasureTheory

/-! ## The model -/

/-- A rectangle of the input. -/
structure Rect extends Box where
  hx : x1 < x2
  hy : y1 < y2

/-- `Segment`: a side of a rectangle from `l` to `r` at height `h`, which opens (`val = 1`) or
closes (`val = -1`) its interval. -/
structure Segment where
  l : ℤ
  r : ℤ
  h : ℤ
  val : ℤ
  deriving DecidableEq, Repr

/-- `Seg`, as it is read. -/
def segs (rects : List Rect) : List Segment :=
  rects.flatMap fun b => [⟨b.x1, b.x2, b.y1, 1⟩, ⟨b.x1, b.x2, b.y2, -1⟩]

/-- `X`, as it is read. -/
def xs (rects : List Rect) : List ℤ := rects.flatMap fun b => [b.x1, b.x2]

/-- `std::unique`: the first of every group of equal neighbours. -/
def unique : List ℤ → List ℤ
  | [] => []
  | [a] => [a]
  | a :: b :: as => if a = b then unique (b :: as) else a :: unique (b :: as)

/-- An array that holds `as` from index 1 on, and `rest` behind them. -/
def arrayOf (as : List ℤ) (rest : ℕ → ℤ) : ℕ → ℤ
  | 0 => 0
  | i + 1 => as[i]?.getD (rest i)

/-- The loop of `main`, over the segments from `Seg[i]` on. -/
def sweep (X : ℕ → ℤ) (Tree : ℕ → SegTree) (ans : ℤ) : List Segment → Option ℤ
  | s :: next :: rest =>
    (update X Tree 1 s.l s.r s.val).bind fun Tree =>
      (checkLong (next.h - s.h)).bind fun hi =>
        (checkLong ((Tree 1).len * hi)).bind fun area =>
          (checkLong (ans + area)).bind fun ans => sweep X Tree ans (next :: rest)
  | _ => some ans

/-- `main`, with a function that sorts the segments by height, and whatever `unique` leaves behind
the coordinates that it keeps. -/
def main (sort : List Segment → List Segment) (rest : ℕ → ℤ) (rects : List Rect) : Option ℤ :=
  if 2 * rects.length < segSize then
    let X := unique ((xs rects).mergeSort (· ≤ ·))
    (Build (fun _ => ⟨0, 0, 0, 0⟩) 1 1 (X.length - 1)).bind fun Tree =>
      sweep (arrayOf X rest) Tree 0 (sort (segs rects))
  else none

/-- What `std::sort` promises: a permutation, in the order of the heights. -/
def Sorts (sort : List Segment → List Segment) : Prop :=
  ∀ ss, (sort ss).Perm ss ∧ (sort ss).Pairwise fun a b => a.h ≤ b.h

/-! ## The compressed coordinates -/

/-- `unique` keeps the elements. -/
theorem mem_unique {as : List ℤ} {a : ℤ} : a ∈ unique as ↔ a ∈ as := by
  induction as using unique.induct with
  | case1 => rfl
  | case2 => rfl
  | case3 b as ih =>
    rw [unique, if_pos rfl, ih]
    simp
  | case4 b c as hne ih =>
    rw [unique, if_neg hne, List.mem_cons, ih, ← List.mem_cons]

/-- `unique` of a sorted list is strictly sorted. -/
theorem pairwise_unique {as : List ℤ} (h : as.Pairwise (· ≤ ·)) : (unique as).Pairwise (· < ·) := by
  induction as using unique.induct with
  | case1 => exact List.Pairwise.nil
  | case2 a => exact List.pairwise_singleton _ a
  | case3 b as ih =>
    rw [unique, if_pos rfl]
    exact ih h.of_cons
  | case4 b c as hne ih =>
    rw [unique, if_neg hne]
    refine List.pairwise_cons.mpr ⟨fun a ha => ?_, ih h.of_cons⟩
    have hbc : b ≤ c := List.rel_of_pairwise_cons h List.mem_cons_self
    have hca : c ≤ a := by
      obtain rfl | ha := List.mem_cons.mp (mem_unique.mp ha)
      · exact le_rfl
      · exact List.rel_of_pairwise_cons h.of_cons ha
    omega

/-- A merge sort by a key sorts by the key. -/
theorem pairwise_mergeSort_key {α : Type} (key : α → ℤ) (as : List α) :
    (as.mergeSort fun a b => decide (key a ≤ key b)).Pairwise fun a b => key a ≤ key b := by
  have htrans : ∀ a b c : α, decide (key a ≤ key b) = true → decide (key b ≤ key c) = true →
      decide (key a ≤ key c) = true := by
    simp only [decide_eq_true_eq]
    omega
  have htotal : ∀ a b : α, (decide (key a ≤ key b) || decide (key b ≤ key a)) = true := by
    simp only [Bool.or_eq_true, decide_eq_true_eq]
    omega
  simpa using List.pairwise_mergeSort htrans htotal as

/-- The compressed coordinates, in `X[1]` to `X[cnt]`. -/
def coords (rects : List Rect) : List ℤ := unique ((xs rects).mergeSort (· ≤ ·))

/-- They are strictly sorted. -/
theorem pairwise_coords (rects : List Rect) : (coords rects).Pairwise (· < ·) :=
  pairwise_unique (pairwise_mergeSort_key id (xs rects))

/-- They are the coordinates of the rectangles. -/
theorem mem_coords {rects : List Rect} {x : ℤ} :
    x ∈ coords rects ↔ ∃ b ∈ rects, x = b.x1 ∨ x = b.x2 := by
  rw [coords, mem_unique, (List.mergeSort_perm _ _).mem_iff, xs, List.mem_flatMap]
  simp

/-- An entry of the array. -/
theorem arrayOf_succ {as : List ℤ} (rest : ℕ → ℤ) {i : ℕ} (h : i < as.length) :
    arrayOf as rest (i + 1) = as[i] := by
  rw [arrayOf, List.getElem?_eq_getElem h, Option.getD_some]

/-- The coordinates that the array holds are strictly sorted. -/
theorem strictMonoOn_arrayOf {as : List ℤ} (rest : ℕ → ℤ) (h : as.Pairwise (· < ·)) :
    StrictMonoOn (arrayOf as rest) (Set.Icc 1 as.length) := by
  intro i hi j hj hij
  obtain ⟨i, rfl⟩ := Nat.exists_eq_succ_of_ne_zero (Nat.one_le_iff_ne_zero.mp hi.1)
  obtain ⟨j, rfl⟩ := Nat.exists_eq_succ_of_ne_zero (Nat.one_le_iff_ne_zero.mp hj.1)
  rw [Nat.succ_eq_add_one, Nat.succ_eq_add_one, arrayOf_succ rest hi.2, arrayOf_succ rest hj.2]
  exact List.pairwise_iff_getElem.mp h i j _ _ (Nat.succ_lt_succ_iff.mp hij)

/-- The first and the last coordinate. -/
theorem arrayOf_bounds {as : List ℤ} (rest : ℕ → ℤ) (h : as.Pairwise (· < ·)) {a : ℤ}
    (ha : a ∈ as) :
    arrayOf as rest 1 ≤ a ∧ a ≤ arrayOf as rest as.length := by
  have hmono := (strictMonoOn_arrayOf rest h).monotoneOn
  obtain ⟨j, hj, rfl⟩ := List.getElem_of_mem ha
  rw [← arrayOf_succ rest hj]
  exact ⟨hmono ⟨le_rfl, by omega⟩ ⟨by omega, hj⟩ (by omega),
    hmono ⟨by omega, hj⟩ ⟨by omega, le_rfl⟩ hj⟩

/-- An interval whose ends are coordinates cuts no elementary interval. -/
theorem aligned_arrayOf {as : List ℤ} {rest : ℕ → ℤ} (h : as.Pairwise (· < ·)) {a b : ℤ}
    (ha : a ∈ as) (hb : b ∈ as) : Aligned (arrayOf as rest) 1 (as.length - 1) (a, b) := by
  have hmono := strictMonoOn_arrayOf rest h
  obtain ⟨j, hj, rfl⟩ := List.getElem_of_mem ha
  obtain ⟨k, hk, rfl⟩ := List.getElem_of_mem hb
  have hlen : as.length - 1 + 1 = as.length := by omega
  rw [← arrayOf_succ rest hj, ← arrayOf_succ rest hk]
  rw [← hlen] at hmono
  exact aligned_of_points hmono ⟨by omega, by omega⟩ ⟨by omega, by omega⟩

/-! ## The open intervals -/

/-- The interval of a segment. -/
def Segment.interval (s : Segment) : ℤ × ℤ := (s.l, s.r)

/-- The intervals of the segments with the value `val`. -/
def intervals (val : ℤ) (ss : List Segment) : Multiset (ℤ × ℤ) :=
  ((ss.filter fun s => s.val = val).map Segment.interval : List (ℤ × ℤ))

/-- The intervals of the rectangles with a property. -/
def intervalsOf (p : Rect → Bool) (rects : List Rect) : Multiset (ℤ × ℤ) :=
  ((rects.filter p).map fun b => (b.x1, b.x2) : List (ℤ × ℤ))

/-- A permutation keeps the intervals. -/
theorem intervals_perm {val : ℤ} {ss ts : List Segment} (h : ss.Perm ts) :
    intervals val ss = intervals val ts := Multiset.coe_eq_coe.mpr ((h.filter _).map _)

/-- A sublist has a part of the intervals. -/
theorem intervals_le {val : ℤ} {ss ts : List Segment} (h : ss.Sublist ts) :
    intervals val ss ≤ intervals val ts := Multiset.coe_le.mpr ((h.filter _).map _).subperm

/-- The intervals after one more segment. -/
theorem intervals_snoc (val : ℤ) (ss : List Segment) (s : Segment) :
    intervals val (ss ++ [s]) = if s.val = val then s.interval ::ₘ intervals val ss
      else intervals val ss := by
  rw [intervals_perm (List.perm_append_singleton s ss), intervals, List.filter_cons]
  by_cases h : s.val = val
  · rw [if_pos h, if_pos (decide_eq_true h)]
    rfl
  · rw [if_neg h, if_neg (by simpa using h)]
    rfl

/-- The intervals of the segments with the value `val`, at the heights with a property. -/
theorem intervals_segs {val : ℤ} {height : Rect → ℤ}
    (hval : ∀ b : Rect, (segs [b]).filter (fun s => s.val = val) = [⟨b.x1, b.x2, height b, val⟩])
    (p : ℤ → Bool) (rects : List Rect) :
    intervals val ((segs rects).filter fun s => p s.h) =
      intervalsOf (fun b => p (height b)) rects := by
  unfold intervals intervalsOf
  congr 1
  induction rects with
  | nil => rfl
  | cons b rects ih =>
    have hcons : segs (b :: rects) = segs [b] ++ segs rects := rfl
    rw [hcons, List.filter_append, List.filter_append, List.map_append, ih, List.filter_filter]
    have hcomm : (segs [b]).filter (fun s => decide (s.val = val) && p s.h) =
        ((segs [b]).filter fun s => s.val = val).filter fun s => p s.h := by
      rw [List.filter_filter]
      exact List.filter_congr fun s _ => Bool.and_comm _ _
    rw [hcomm, hval]
    by_cases hp : p (height b) = true
    · simp [hp, Segment.interval]
    · simp [hp]

/-- The intervals of the segments that open one, at the heights with a property. -/
theorem intervals_one (p : ℤ → Bool) (rects : List Rect) :
    intervals 1 ((segs rects).filter fun s => p s.h) = intervalsOf (fun b => p b.y1) rects :=
  intervals_segs (fun _ => rfl) p rects

/-- The intervals of the segments that close one, at the heights with a property. -/
theorem intervals_neg_one (p : ℤ → Bool) (rects : List Rect) :
    intervals (-1) ((segs rects).filter fun s => p s.h) = intervalsOf (fun b => p b.y2) rects :=
  intervals_segs (fun _ => rfl) p rects

/-- A stronger property has a part of the intervals. -/
theorem intervalsOf_le {p q : Rect → Bool} (h : ∀ b, p b = true → q b = true) (rects : List Rect) :
    intervalsOf p rects ≤ intervalsOf q rects :=
  Multiset.coe_le.mpr ((List.monotone_filter_right rects h).map _).subperm

/-- The intervals with a property are those that have another one as well, and those that do not. -/
theorem intervalsOf_add (p q : Rect → Bool) (rects : List Rect) :
    intervalsOf (fun b => p b && q b) rects + intervalsOf (fun b => p b && !q b) rects =
      intervalsOf p rects := by
  unfold intervalsOf
  have hperm := List.filter_append_perm q (rects.filter p)
  rw [List.filter_filter, List.filter_filter] at hperm
  rw [Multiset.coe_add, ← List.map_append, Multiset.coe_eq_coe]
  refine List.Perm.map _ (List.Perm.trans ?_ hperm)
  simp only [Bool.and_comm]
  rfl

/-- The sorted segments, before and after a point of the sweep. -/
structure Swept (rects : List Rect) (done rest : List Segment) : Prop where
  perm : (done ++ rest).Perm (segs rects)
  sorted : (done ++ rest).Pairwise fun a b => a.h ≤ b.h

section Swept

variable {rects : List Rect} {done rest : List Segment}

/-- The intervals that are open after the segments `done`. -/
def Open (done : List Segment) (S : Multiset (ℤ × ℤ)) : Prop :=
  S + intervals (-1) done = intervals 1 done

/-- The open intervals at a height between the segments that are done and the others: those of the
rectangles that reach the height. -/
theorem Swept.open_eq (h : Swept rects done rest) {S : Multiset (ℤ × ℤ)} (hS : Open done S) {y : ℤ}
    (hdone : ∀ s ∈ done, s.h ≤ y) (hrest : ∀ s ∈ rest, y < s.h) :
    S = intervalsOf (fun b => decide (b.y1 ≤ y ∧ y < b.y2)) rects := by
  have hall : ∀ val, intervals val done = intervals val ((segs rects).filter fun s => s.h ≤ y) := by
    intro val
    rw [← intervals_perm (h.perm.filter _), List.filter_append, List.filter_eq_self.mpr,
      List.filter_eq_nil_iff.mpr, List.append_nil]
    · intro s hs
      simpa using hrest s hs
    · intro s hs
      simpa using hdone s hs
  -- Of the rectangles that begin at the height or below, some reach it, and the others end there.
  have hsplit := intervalsOf_add (fun b => decide (b.y1 ≤ y)) (fun b => decide (y < b.y2)) rects
  have hreach : (fun b : Rect => decide (b.y1 ≤ y) && decide (y < b.y2)) =
      fun b => decide (b.y1 ≤ y ∧ y < b.y2) := by
    funext b
    exact (Bool.decide_and _ _).symm
  have hend : (fun b : Rect => decide (b.y1 ≤ y) && !decide (y < b.y2)) =
      fun b => decide (b.y2 ≤ y) := by
    funext b
    have hy := b.hy
    rw [← decide_not, ← Bool.decide_and]
    exact decide_eq_decide.mpr (by omega)
  rw [hreach, hend] at hsplit
  unfold Open at hS
  rw [hall, hall, intervals_one (fun h => decide (h ≤ y)),
    intervals_neg_one (fun h => decide (h ≤ y)), ← hsplit] at hS
  exact Multiset.add_left_inj.mp hS

/-- Before a segment that closes an interval, the segment that opens it is done. -/
theorem Swept.closed_le {s : Segment} (h : Swept rects done (s :: rest)) :
    intervals (-1) (done ++ [s]) ≤ intervals 1 done := by
  obtain ⟨hdone, hrest, hcross⟩ := List.pairwise_append.mp h.sorted
  have hle : ∀ t ∈ done ++ [s], t.h ≤ s.h := by
    intro t ht
    obtain ht | ht := List.mem_append.mp ht
    · exact hcross t ht s List.mem_cons_self
    · rw [List.mem_singleton.mp ht]
  have hge : ∀ t ∈ s :: rest, s.h ≤ t.h := by
    intro t ht
    obtain rfl | ht := List.mem_cons.mp ht
    · exact le_rfl
    · exact List.rel_of_pairwise_cons hrest ht
  calc intervals (-1) (done ++ [s])
      = intervals (-1) ((done ++ [s]).filter fun t => t.h ≤ s.h) := by
        rw [List.filter_eq_self.mpr]
        intro t ht
        simpa using hle t ht
    _ ≤ intervals (-1) ((done ++ s :: rest).filter fun t => t.h ≤ s.h) := by
        refine intervals_le (List.Sublist.filter _ (List.Sublist.append_left ?_ _))
        exact List.Sublist.cons_cons s (List.nil_sublist _)
    _ = intervalsOf (fun b => decide (b.y2 ≤ s.h)) rects := by
        rw [intervals_perm (h.perm.filter _), intervals_neg_one fun h => decide (h ≤ s.h)]
    _ ≤ intervalsOf (fun b => decide (b.y1 < s.h)) rects := by
        refine intervalsOf_le (fun b hb => ?_) rects
        have hb2 : b.y2 ≤ s.h := of_decide_eq_true hb
        exact decide_eq_true (b.hy.trans_le hb2)
    _ = intervals 1 ((done ++ s :: rest).filter fun t => t.h < s.h) := by
        rw [intervals_perm (h.perm.filter _), intervals_one fun h => decide (h < s.h)]
    _ ≤ intervals 1 done := by
        have hnil : ((s :: rest).filter fun t => decide (t.h < s.h)) = [] :=
          List.filter_eq_nil_iff.mpr fun t ht => by simpa using hge t ht
        rw [List.filter_append, hnil, List.append_nil]
        exact intervals_le List.filter_sublist

/-- The next segment opens its interval, or closes one that is open. -/
theorem Swept.change {s : Segment} (h : Swept rects done (s :: rest)) {S : Multiset (ℤ × ℤ)}
    (hS : Open done S) : ∃ S', Change s.val s.interval S S' ∧ Open (done ++ [s]) S' := by
  have hmem : s ∈ segs rects := h.perm.mem_iff.mp (by simp)
  obtain ⟨b, -, hb⟩ := List.mem_flatMap.mp hmem
  have hval : s.val = 1 ∨ s.val = -1 := by
    obtain rfl | hb := List.mem_cons.mp hb
    · exact .inl rfl
    · rw [List.mem_singleton.mp hb]
      exact .inr rfl
  unfold Open at hS
  obtain hval | hval := hval
  · refine ⟨s.interval ::ₘ S, .inl ⟨hval, rfl⟩, ?_⟩
    rw [Open, intervals_snoc, intervals_snoc, if_pos hval, if_neg (by omega), Multiset.cons_add, hS]
  · -- Its interval is among the open ones, since it is closed no more often than opened.
    have hle := h.closed_le
    rw [intervals_snoc, if_pos hval, ← hS, ← Multiset.singleton_add] at hle
    have hopen : s.interval ∈ S :=
      Multiset.singleton_le.mp (Multiset.le_of_add_le_add_right hle)
    refine ⟨S.erase s.interval, .inr ⟨hval, (Multiset.cons_erase hopen).symm⟩, ?_⟩
    rw [Open, intervals_snoc, intervals_snoc, if_pos hval, if_neg (by omega), Multiset.add_cons,
      ← Multiset.cons_add, Multiset.cons_erase hopen, hS]

end Swept

/-! ## The loop -/

section Loop

variable {rects : List Rect} {rest : ℕ → ℤ} {done todo : List Segment} {Tree Tree' : ℕ → SegTree}

/-- The boxes of the rectangles. -/
def boxes (rects : List Rect) : List Box := rects.map Rect.toBox

/-- The array represents a tree that counts the intervals that are open after the segments `done`,
and whose height is logarithmic. -/
def Tracks (rects : List Rect) (rest : ℕ → ℤ) (done : List Segment) (Tree : ℕ → SegTree) : Prop :=
  ∃ (t : CoverTree ℤ 1 ((coords rects).length - 1)) (S : Multiset (ℤ × ℤ)),
    Represents Tree 1 t ∧ t.Counts (arrayOf (coords rects) rest) S ∧ Open done S ∧
      ∀ d, (coords rects).length - 1 - 1 < 2^d → t.height ≤ d

/-- The coordinates under a tree are strictly sorted. -/
theorem strictMonoOn_coords (rest : ℕ → ℤ) (h : 1 ≤ (coords rects).length - 1) :
    StrictMonoOn (arrayOf (coords rects) rest) (Set.Icc 1 ((coords rects).length - 1 + 1)) := by
  rw [Nat.sub_add_cancel (by omega)]
  exact strictMonoOn_arrayOf rest (pairwise_coords rects)

/-- The ends of a segment are coordinates. -/
theorem Swept.aligned {s : Segment} (h : Swept rects done (s :: todo)) (rest : ℕ → ℤ) :
    Aligned (arrayOf (coords rects) rest) 1 ((coords rects).length - 1) (s.l, s.r) := by
  have hmem : s ∈ segs rects := h.perm.mem_iff.mp (by simp)
  -- Either side of a rectangle has its interval.
  obtain ⟨b, hb, hs⟩ := List.mem_flatMap.mp hmem
  have hends : s.l = b.x1 ∧ s.r = b.x2 := by
    obtain rfl | hs := List.mem_cons.mp hs
    · exact ⟨rfl, rfl⟩
    · rw [List.mem_singleton.mp hs]
      exact ⟨rfl, rfl⟩
  exact aligned_arrayOf (pairwise_coords rects) (mem_coords.mpr ⟨b, hb, .inl hends.1⟩)
    (mem_coords.mpr ⟨b, hb, .inr hends.2⟩)

/-- One segment of the sweep. -/
theorem Tracks.update {s : Segment} (h : Tracks rects rest done Tree)
    (hs : Swept rects done (s :: todo))
    (hupd : update (arrayOf (coords rects) rest) Tree 1 s.l s.r s.val = some Tree') :
    Tracks rects rest (done ++ [s]) Tree' := by
  obtain ⟨t, S, ht, hcounts, hopen, hheight⟩ := h
  obtain ⟨S', hchange, hopen'⟩ := hs.change hopen
  have haligned := hs.aligned rest
  refine ⟨t.update _ (s.l, s.r) s.val, S', (update_spec Nat.one_pos ht haligned hupd).1, ?_,
    hopen', ?_⟩
  · exact hcounts.update (strictMonoOn_coords rest t.le) haligned hchange
  · rw [CoverTree.height_update]
    exact hheight

open scoped Classical in
/-- The covered length at a height between the segments that are done and the others is the length
of the row. -/
theorem Tracks.len_eq (h : Tracks rects rest done Tree) (hs : Swept rects done todo) {y : ℤ}
    (hdone : ∀ s ∈ done, s.h ≤ y) (htodo : ∀ s ∈ todo, y < s.h) :
    (Tree 1).len = (row (boxes rects) y).card := by
  obtain ⟨t, S, ht, hcounts, hopen, -⟩ := h
  -- The open intervals are those of the rectangles that reach the row.
  have hX := strictMonoOn_coords rest t.le
  have hS := hs.open_eq hopen hdone htodo
  have hmem : ∀ I, I ∈ S ↔ ∃ b ∈ rects, (b.y1 ≤ y ∧ y < b.y2) ∧ (b.x1, b.x2) = I := by
    intro I
    rw [hS, intervalsOf, Multiset.mem_coe]
    simp [and_assoc]
  have haligned :
      ∀ I ∈ S, Aligned (arrayOf (coords rects) rest) 1 ((coords rects).length - 1) I := by
    intro I hI
    obtain ⟨b, hb, -, rfl⟩ := (hmem I).mp hI
    exact aligned_arrayOf (pairwise_coords rects) (mem_coords.mpr ⟨b, hb, .inl rfl⟩)
      (mem_coords.mpr ⟨b, hb, .inr rfl⟩)
  rw [ht.root.2.2, hcounts.len_eq, coveredLength_eq_card hX t.le haligned]
  congr 2
  ext x
  rw [Finset.mem_filter, Finset.mem_Ico, mem_row, Nat.sub_add_cancel (by have := t.le; omega)]
  -- A point of the row is between the first and the last coordinate.
  constructor
  · rintro ⟨-, I, hI, hl, hr⟩
    obtain ⟨b, hb, hy, rfl⟩ := (hmem I).mp hI
    exact ⟨b.toBox, List.mem_map_of_mem hb, hy, hl, hr⟩
  · rintro ⟨b', hb', hy, hl, hr⟩
    obtain ⟨b, hb, rfl⟩ := List.mem_map.mp hb'
    have hx1 := arrayOf_bounds rest (pairwise_coords rects)
      (mem_coords.mpr ⟨b, hb, .inl rfl⟩)
    have hx2 := arrayOf_bounds rest (pairwise_coords rects)
      (mem_coords.mpr ⟨b, hb, .inr rfl⟩)
    exact ⟨⟨hx1.1.trans hl, hr.trans_le hx2.2⟩, _, (hmem _).mpr ⟨b, hb, hy, rfl⟩, hl, hr⟩

/-- The next step of the sweep. -/
theorem Swept.next {s : Segment} (h : Swept rects done (s :: todo)) :
    Swept rects (done ++ [s]) todo := by
  have happ : done ++ s :: todo = done ++ [s] ++ todo := by rw [List.append_assoc]; rfl
  obtain ⟨hperm, hsorted⟩ := h
  rw [happ] at hperm hsorted
  exact ⟨hperm, hsorted⟩

/-- The segments are in the order of the heights. -/
theorem Swept.le_of_mem {s t : Segment} (h : Swept rects done (s :: todo)) (ht : t ∈ s :: todo) :
    s.h ≤ t.h := by
  obtain rfl | ht := List.mem_cons.mp ht
  · exact le_rfl
  · exact List.rel_of_pairwise_cons (List.pairwise_append.mp h.sorted).2.1 ht

/-- The cells of the rows from height `lo` to height `hi`. -/
noncomputable def rows (rects : List Rect) (lo hi : ℤ) : ℤ :=
  ∑ y ∈ Finset.Ico lo hi, ((row (boxes rects) y).card : ℤ)

/-- The rows of two adjacent ranges of heights. -/
theorem rows_add {lo mid hi : ℤ} (h : lo ≤ mid) (h' : mid ≤ hi) :
    rows rects lo mid + rows rects mid hi = rows rects lo hi := by
  unfold rows
  rw [← Finset.Ico_union_Ico_eq_Ico h h',
    Finset.sum_union (Finset.Ico_disjoint_Ico_consecutive lo mid hi)]

/-- The rows up to the next segment all have the covered length. -/
theorem Tracks.rows_eq {s next : Segment} (h : Tracks rects rest (done ++ [s]) Tree)
    (hs : Swept rects (done ++ [s]) (next :: todo)) :
    rows rects s.h next.h = (Tree 1).len * (next.h - s.h) := by
  obtain ⟨hdone, htodo, hcross⟩ := List.pairwise_append.mp hs.sorted
  have hle : s.h ≤ next.h := hcross s (by simp) next List.mem_cons_self
  have hconst : ∀ y ∈ Finset.Ico s.h next.h, ((row (boxes rects) y).card : ℤ) = (Tree 1).len := by
    intro y hy
    rw [Finset.mem_Ico] at hy
    refine (h.len_eq hs (fun t ht => ?_) fun t ht => ?_).symm
    · obtain ht | ht := List.mem_append.mp ht
      · exact ((List.pairwise_append.mp hdone).2.2 t ht s List.mem_cons_self).trans hy.1
      · rw [List.mem_singleton.mp ht]
        exact hy.1
    · obtain rfl | ht := List.mem_cons.mp ht
      · exact hy.2
      · exact hy.2.trans_le (List.rel_of_pairwise_cons htodo ht)
  rw [rows, Finset.sum_congr rfl hconst, Finset.sum_const, Int.card_Ico, nsmul_eq_mul,
    Int.toNat_of_nonneg (by omega), mul_comm]

/-- The last segment adds nothing. -/
theorem sweep_singleton (X : ℕ → ℤ) (Tree : ℕ → SegTree) (ans : ℤ) (s : Segment) :
    sweep X Tree ans [s] = some ans := rfl

/-- The loop adds up the rows from the first height to the last. -/
theorem sweep_eq {ans ans' : ℤ} {s last : Segment} (htree : Tracks rects rest done Tree)
    (hs : Swept rects done (s :: todo)) (hlast : (s :: todo).getLast? = some last)
    (h : sweep (arrayOf (coords rects) rest) Tree ans (s :: todo) = some ans') :
    ans' = ans + rows rects s.h last.h := by
  induction todo generalizing done Tree ans s with
  | nil =>
    obtain rfl : s = last := by simpa using hlast
    rw [sweep_singleton] at h
    obtain rfl := Option.some.inj h
    rw [rows, Finset.Ico_self, Finset.sum_empty, add_zero]
  | cons next todo ih =>
    rw [sweep] at h
    obtain ⟨T, hupd, h⟩ := Option.bind_eq_some_iff.mp h
    obtain ⟨hi, hhi, h⟩ := Option.bind_eq_some_iff.mp h
    obtain ⟨area, harea, h⟩ := Option.bind_eq_some_iff.mp h
    obtain ⟨ans₁, hans₁, h⟩ := Option.bind_eq_some_iff.mp h
    obtain rfl := eq_of_checkLong hhi
    obtain rfl := eq_of_checkLong harea
    obtain rfl := eq_of_checkLong hans₁
    have htree' := htree.update hs hupd
    have hlast' : (next :: todo).getLast? = some last := by simpa using hlast
    have hle : s.h ≤ next.h := hs.le_of_mem (by simp)
    have hle' : next.h ≤ last.h := hs.next.le_of_mem (List.mem_of_getLast? hlast')
    rw [ih htree' hs.next hlast' h, ← htree'.rows_eq hs.next, add_assoc, rows_add hle hle']

/-- The distance of the first coordinate from the last. -/
def width (rects : List Rect) (rest : ℕ → ℤ) : ℤ :=
  arrayOf (coords rects) rest (coords rects).length - arrayOf (coords rects) rest 1

/-- There are no more open intervals than segments. -/
theorem Swept.card_le (h : Swept rects done todo) {S : Multiset (ℤ × ℤ)} (hS : Open done S) :
    S.card ≤ 2 * rects.length := by
  have hlen : (segs rects).length = 2 * rects.length := by
    rw [segs, List.length_flatMap]
    simp [Nat.mul_comm]
  have hopen : S ≤ intervals 1 done := by
    rw [← hS]
    exact Multiset.le_add_right _ _
  calc S.card ≤ (intervals 1 done).card := Multiset.card_le_card hopen
    _ ≤ done.length := by
        rw [intervals, Multiset.coe_card, List.length_map]
        exact List.length_filter_le _ _
    _ ≤ (done ++ todo).length := by
        rw [List.length_append]
        exact Nat.le_add_right _ _
    _ = 2 * rects.length := by rw [h.perm.length_eq, hlen]

/-- The covered length is at most the width. -/
theorem Tracks.len_bounds (h : Tracks rects rest done Tree) :
    0 ≤ (Tree 1).len ∧ (Tree 1).len ≤ width rects rest := by
  obtain ⟨t, S, ht, hcounts, -, -⟩ := h
  have hle := t.le
  have hbounds := coveredLength_bounds (S := S) (strictMonoOn_coords rest hle) hle
  rw [Nat.sub_add_cancel (by omega)] at hbounds
  rw [ht.root.2.2, hcounts.len_eq]
  exact hbounds

/-- The update for a segment is defined when the nodes fit in the array and the width in a
`long long`. -/
theorem Tracks.update_isSome {s : Segment} (h : Tracks rects rest done Tree)
    (hs : Swept rects done (s :: todo)) (hcnt : (coords rects).length ≤ 2^18 + 1)
    (hlen : 2 * rects.length < segSize) (hwidth : width rects rest < 2^63) :
    ∃ Tree', SweepLine.update (arrayOf (coords rects) rest) Tree 1 s.l s.r s.val = some Tree' := by
  obtain ⟨t, S, ht, hcounts, hopen, hheight⟩ := h
  obtain ⟨S', hchange, hopen'⟩ := hs.change hopen
  have hle := t.le
  have hX := strictMonoOn_coords rest hle
  have haligned := hs.aligned rest
  have hcard := hs.next.card_le hopen'
  unfold segSize at hlen
  refine ht.update_isSome hX haligned (hcounts.update hX haligned hchange) (hheight 18 (by omega))
    ?_ (by omega) ?_
  · unfold segSize
    omega
  · rw [Nat.sub_add_cancel (by omega)]
    exact hwidth

/-- The loop is defined when the nodes fit in the array, and the width times the height in a
`long long`. -/
theorem sweep_isSome {ans lo : ℤ} {s last : Segment} (htree : Tracks rects rest done Tree)
    (hs : Swept rects done (s :: todo)) (hlast : (s :: todo).getLast? = some last)
    (hcnt : (coords rects).length ≤ 2^18 + 1) (hlen : 2 * rects.length < segSize)
    (hwidth : width rects rest < 2^63) (hheight : last.h - lo < 2^63)
    (harea : width rects rest * (last.h - lo) < 2^63) (hlo : lo ≤ s.h) (hans : 0 ≤ ans)
    (hans' : ans ≤ width rects rest * (s.h - lo)) :
    ∃ ans', sweep (arrayOf (coords rects) rest) Tree ans (s :: todo) = some ans' := by
  induction todo generalizing done Tree ans s with
  | nil => exact ⟨ans, sweep_singleton ..⟩
  | cons next todo ih =>
    obtain ⟨T, hupd⟩ := htree.update_isSome hs hcnt hlen hwidth
    have htree' := htree.update hs hupd
    have hlast' : (next :: todo).getLast? = some last := by simpa using hlast
    have hle : s.h ≤ next.h := hs.le_of_mem (by simp)
    have hle' : next.h ≤ last.h := hs.next.le_of_mem (List.mem_of_getLast? hlast')
    obtain ⟨hnonneg, hbound⟩ := htree'.len_bounds
    -- The area so far is at most that of the strip below the next segment.
    have harea_nonneg : 0 ≤ (T 1).len * (next.h - s.h) := mul_nonneg hnonneg (by omega)
    have hstrip : (T 1).len * (next.h - s.h) ≤ width rects rest * (next.h - s.h) :=
      mul_le_mul_of_nonneg_right hbound (by omega)
    have hsum : width rects rest * (s.h - lo) + width rects rest * (next.h - s.h) =
        width rects rest * (next.h - lo) := by ring
    have htotal : width rects rest * (next.h - lo) ≤ width rects rest * (last.h - lo) :=
      mul_le_mul_of_nonneg_left (by omega) (by omega)
    have hfits : ∀ z : ℤ, 0 ≤ z → z < 2^63 → checkLong z = some z := by
      intro z hz hz'
      unfold checkLong longMin longMax
      rw [if_pos ⟨by omega, by omega⟩]
    have hpart : width rects rest * (s.h - lo) ≥ 0 := mul_nonneg (by omega) (by omega)
    rw [sweep, hupd, Option.bind_some, hfits _ (by omega) (by omega), Option.bind_some,
      hfits _ harea_nonneg (by omega), Option.bind_some, hfits _ (by omega) (by omega),
      Option.bind_some]
    exact ih htree' hs.next hlast' (by omega) (by omega) (by omega)

end Loop

/-! ## The result -/

/-- A sorted permutation of the segments is what is to be swept. -/
theorem Sorts.swept {sort : List Segment → List Segment} (h : Sorts sort) (rects : List Rect) :
    Swept rects [] (sort (segs rects)) := by
  obtain ⟨hperm, hsorted⟩ := h (segs rects)
  exact ⟨hperm, hsorted⟩

/-- No segment is higher than the last of the sorted ones. -/
theorem le_last {ss : List Segment} (h : ss.Pairwise fun a b => a.h ≤ b.h) {s last : Segment}
    (hlast : ss.getLast? = some last) (hs : s ∈ ss) : s.h ≤ last.h := by
  obtain ⟨ys, rfl⟩ := List.getLast?_eq_some_iff.mp hlast
  obtain hs | hs := List.mem_append.mp hs
  · exact (List.pairwise_append.mp h).2.2 s hs last List.mem_cons_self
  · rw [List.mem_singleton.mp hs]

variable {rects : List Rect} {sort : List Segment → List Segment} {rest : ℕ → ℤ}

/-- The sides of a rectangle are among the segments. -/
theorem mem_segs {b : Rect} (hb : b ∈ rects) :
    ⟨b.x1, b.x2, b.y1, 1⟩ ∈ segs rects ∧ ⟨b.x1, b.x2, b.y2, -1⟩ ∈ segs rects :=
  ⟨List.mem_flatMap.mpr ⟨b, hb, by simp⟩, List.mem_flatMap.mpr ⟨b, hb, by simp⟩⟩

/-- A segment is between the lower and the upper side of a rectangle. -/
theorem exists_of_mem_segs {s : Segment} (hs : s ∈ segs rects) :
    ∃ b ∈ rects, b.y1 ≤ s.h ∧ s.h ≤ b.y2 := by
  obtain ⟨b, hb, hs⟩ := List.mem_flatMap.mp hs
  have hy := b.hy
  obtain rfl | hs := List.mem_cons.mp hs
  · exact ⟨b, hb, le_rfl, hy.le⟩
  · rw [List.mem_singleton.mp hs]
    exact ⟨b, hb, hy.le, le_rfl⟩

/-- A rectangle has two different coordinates. -/
theorem two_le_length_coords (h : rects ≠ []) : 2 ≤ (coords rects).length := by
  obtain ⟨b, hb⟩ := List.exists_mem_of_ne_nil rects h
  have hx := b.hx
  obtain ⟨i, hi, h1⟩ := List.getElem_of_mem (mem_coords.mpr ⟨b, hb, .inl rfl⟩)
  obtain ⟨j, hj, h2⟩ := List.getElem_of_mem (mem_coords.mpr ⟨b, hb, .inr rfl⟩)
  by_contra hlt
  obtain rfl : i = j := by omega
  omega

/-- The sweep starts with a tree that counts nothing, and with the first of the sorted segments. -/
theorem sweep_start (rest : ℕ → ℤ) (hrects : rects ≠ []) (hsort : Sorts sort) :
    (∀ Tree, Build (fun _ => ⟨0, 0, 0, 0⟩) 1 1 ((coords rects).length - 1) = some Tree →
      Tracks rects rest [] Tree) ∧
    ∃ first todo last,
      sort (segs rects) = first :: todo ∧ (first :: todo).getLast? = some last := by
  have hcnt := two_le_length_coords hrects
  constructor
  · intro Tree hbuild
    obtain ⟨⟨t, ht, hcounts, hheight⟩, -⟩ := Build_spec (arrayOf (coords rects) rest) Nat.one_pos
      (show 1 ≤ (coords rects).length - 1 by omega) (fun _ _ => rfl) hbuild
    exact ⟨t, 0, ht, hcounts, rfl, hheight⟩
  · obtain ⟨b, hb⟩ := List.exists_mem_of_ne_nil rects hrects
    have hmem := (hsort.swept rects).perm.mem_iff.mpr (mem_segs hb).1
    match hs : sort (segs rects), hmem with
    | first :: todo, _ =>
      exact ⟨first, todo, _, rfl, List.getLast?_eq_getLast_of_ne_nil (List.cons_ne_nil _ _)⟩

/-- A defined result is the area of the union of the rectangles. -/
theorem area_eq (hrects : rects ≠ []) (hsort : Sorts sort) {ans : ℤ}
    (h : main sort rest rects = some ans) :
    volume (⋃ b ∈ rects, b.region) = ENNReal.ofReal ans := by
  obtain ⟨hstart, first, todo, last, hcons, hlast⟩ := sweep_start rest hrects hsort
  have hswept := hsort.swept rects
  rw [hcons] at hswept
  unfold main at h
  split_ifs at h with hlen
  obtain ⟨Tree, hbuild, h⟩ := Option.bind_eq_some_iff.mp h
  rw [hcons] at h
  have hans := sweep_eq (hstart Tree hbuild) hswept hlast h
  -- Every rectangle is between the first and the last segment.
  have hbetween : ∀ b ∈ boxes rects, first.h ≤ b.y1 ∧ b.y2 ≤ last.h := by
    intro b' hb'
    obtain ⟨b, hb, rfl⟩ := List.mem_map.mp hb'
    have hmem := mem_segs hb
    exact ⟨hswept.le_of_mem (hswept.perm.mem_iff.mpr hmem.1),
      le_last hswept.sorted hlast (hswept.perm.mem_iff.mpr hmem.2)⟩
  have hcells : ans = ((cells (boxes rects)).card : ℤ) := by
    rw [hans, zero_add, rows, card_cells _ hbetween, Nat.cast_sum]
  have hunion : (⋃ b ∈ rects, b.region : Set (ℝ × ℝ)) = ⋃ b ∈ boxes rects, b.region := by
    simp [boxes]
  rw [hunion, volume_iUnion_region, hcells, Int.cast_natCast, ENNReal.ofReal_natCast]

/-- Some rectangle begins at the first coordinate or before, and some rectangle ends at the last or
behind. -/
theorem exists_width_le (rest : ℕ → ℤ) (hrects : rects ≠ []) :
    ∃ a ∈ rects, ∃ b ∈ rects, width rects rest ≤ a.x2 - b.x1 := by
  have hcnt := two_le_length_coords hrects
  have hmem : ∀ i, 1 ≤ i → i ≤ (coords rects).length → ∃ b ∈ rects,
      b.x1 ≤ arrayOf (coords rects) rest i ∧ arrayOf (coords rects) rest i ≤ b.x2 := by
    intro i hi hi'
    obtain ⟨i, rfl⟩ := Nat.exists_eq_succ_of_ne_zero (Nat.one_le_iff_ne_zero.mp hi)
    rw [Nat.succ_eq_add_one, arrayOf_succ rest hi']
    obtain ⟨b, hb, hx⟩ := mem_coords.mp (List.getElem_mem hi')
    have hbx := b.hx
    exact ⟨b, hb, by omega, by omega⟩
  obtain ⟨a, ha, -, hax⟩ := hmem _ (by omega) le_rfl
  obtain ⟨b, hb, hbx, -⟩ := hmem 1 le_rfl (by omega)
  exact ⟨a, ha, b, hb, by unfold width; omega⟩

/-- When no product of two distances overflows, neither do the distances of the sweep and their
product. -/
theorem bounds_of_products (rest : ℕ → ℤ) (hrects : rects ≠ [])
    (harea : ∀ a ∈ rects, ∀ b ∈ rects, ∀ c ∈ rects, ∀ d ∈ rects,
      (a.x2 - b.x1) * (c.y2 - d.y1) < 2^63) {first last : Segment} (hfirst : first ∈ segs rects)
    (hlast : last ∈ segs rects) (hle : first.h ≤ last.h) :
    width rects rest < 2^63 ∧ last.h - first.h < 2^63 ∧
      width rects rest * (last.h - first.h) < 2^63 := by
  obtain ⟨a, ha, b, hb, hwidth⟩ := exists_width_le rest hrects
  obtain ⟨c, hc, -, hcy⟩ := exists_of_mem_segs hlast
  obtain ⟨d, hd, hdy, -⟩ := exists_of_mem_segs hfirst
  have hcheight := c.hy
  have hawidth := a.hx
  have hpos : 0 ≤ width rects rest := by
    have hcnt := two_le_length_coords hrects
    have hmono := (strictMonoOn_arrayOf rest (pairwise_coords rects)).monotoneOn
    exact sub_nonneg.mpr (hmono ⟨le_rfl, by omega⟩ ⟨by omega, le_rfl⟩ (by omega))
  refine ⟨?_, ?_, ?_⟩
  · -- The height of one rectangle is at least one.
    have hprod := harea a ha b hb c hc c hc
    have hone : (a.x2 - b.x1) * 1 ≤ (a.x2 - b.x1) * (c.y2 - c.y1) :=
      mul_le_mul_of_nonneg_left (by omega) (by omega)
    omega
  · have hprod := harea a ha a ha c hc d hd
    have hone : 1 * (c.y2 - d.y1) ≤ (a.x2 - a.x1) * (c.y2 - d.y1) :=
      mul_le_mul_of_nonneg_right (by omega) (by omega)
    omega
  · have hprod := harea a ha b hb c hc d hd
    have hmul : width rects rest * (last.h - first.h) ≤ (a.x2 - b.x1) * (c.y2 - d.y1) :=
      mul_le_mul hwidth (by omega) (by omega) (by omega)
    omega

/-- The result is defined when there are at most 400004 rectangles with at most 262145 different
horizontal coordinates, and no product of a horizontal and a vertical distance overflows. -/
theorem main_isSome (hrects : rects ≠ []) (hsort : Sorts sort) (hlen : rects.length ≤ 400004)
    (hcnt : (xs rects).toFinset.card ≤ 262145)
    (harea : ∀ a ∈ rects, ∀ b ∈ rects, ∀ c ∈ rects, ∀ d ∈ rects,
      (a.x2 - b.x1) * (c.y2 - d.y1) < 2^63) :
    ∃ ans, main sort rest rects = some ans := by
  obtain ⟨hstart, first, todo, last, hcons, hlast⟩ := sweep_start rest hrects hsort
  have hswept := hsort.swept rects
  rw [hcons] at hswept
  -- A tree of 18 levels below its root, whose leaves have children in the array.
  have hcnt' : (coords rects).length ≤ 2^18 + 1 := by
    have hsame : (coords rects).toFinset = (xs rects).toFinset := by
      ext x
      rw [List.mem_toFinset, List.mem_toFinset, coords, mem_unique,
        (List.mergeSort_perm _ _).mem_iff]
    have hnodup : (coords rects).Nodup := (pairwise_coords rects).imp fun h => h.ne
    rw [← hsame, List.toFinset_card_of_nodup hnodup] at hcnt
    exact hcnt
  have hsize : 2 * rects.length < segSize := by
    unfold segSize
    omega
  obtain ⟨Tree, hbuild⟩ : ∃ Tree, Build (fun _ => ⟨0, 0, 0, 0⟩) 1 1 ((coords rects).length - 1) =
      some Tree := Build_isSome (d := 18) Nat.one_pos
        (by have := two_le_length_coords hrects; omega) (by omega) (by decide)
  have hfirst : first ∈ segs rects := hswept.perm.mem_iff.mp List.mem_cons_self
  have hlast' : last ∈ segs rects := hswept.perm.mem_iff.mp (List.mem_of_getLast? hlast)
  obtain ⟨hwidth, hheight, hprod⟩ := bounds_of_products rest hrects harea hfirst hlast'
    (hswept.le_of_mem (List.mem_of_getLast? hlast))
  obtain ⟨ans, hans⟩ := sweep_isSome (hstart Tree hbuild) hswept hlast hcnt' hsize hwidth hheight
    hprod le_rfl le_rfl (by rw [Int.sub_self, mul_zero])
  refine ⟨ans, ?_⟩
  rw [main, if_pos hsize, hcons]
  exact Option.bind_eq_some_iff.mpr ⟨Tree, hbuild, hans⟩

/-- For every way of sorting segments of equal height: a defined result, which is one without an
access out of the arrays and without an overflow, is the area of the union of the rectangles, and
the result is defined for inputs that fit. -/
theorem main_spec (sort : List Segment → List Segment) (hsort : Sorts sort) (rest : ℕ → ℤ)
    (rects : List Rect) (hrects : rects ≠ []) :
    (∀ ans, main sort rest rects = some ans →
      volume (⋃ b ∈ rects, b.region) = ENNReal.ofReal ans) ∧
    (rects.length ≤ 400004 → (xs rects).toFinset.card ≤ 262145 →
      (∀ a ∈ rects, ∀ b ∈ rects, ∀ c ∈ rects, ∀ d ∈ rects,
        (a.x2 - b.x1) * (c.y2 - d.y1) < 2^63) →
      ∃ ans, main sort rest rects = some ans) :=
  ⟨fun _ h => area_eq hrects hsort h, main_isSome hrects hsort⟩

/-- The merge sort by height. -/
def sortByHeight (ss : List Segment) : List Segment := ss.mergeSort fun a b => decide (a.h ≤ b.h)

/-- It sorts. -/
theorem sorts_sortByHeight : Sorts sortByHeight := fun ss =>
  ⟨List.mergeSort_perm _ _, pairwise_mergeSort_key Segment.h ss⟩

/-- The two overlapping squares of the comment in the source. -/
def twoSquares : List Rect :=
  [⟨⟨10, 10, 20, 20⟩, by decide, by decide⟩, ⟨⟨15, 15, 30, 30⟩, by decide, by decide⟩]

/-- The result for them is defined, and the area. -/
theorem main_spec_twoSquares :
    ∃ ans, main sortByHeight (fun _ => 0) twoSquares = some ans ∧
      volume (⋃ b ∈ twoSquares, b.region) = ENNReal.ofReal ans := by
  have hspec := main_spec sortByHeight sorts_sortByHeight (fun _ => 0) twoSquares
    (by simp [twoSquares])
  obtain ⟨ans, hans⟩ := hspec.2 (by decide) (by decide) (by decide)
  exact ⟨ans, hans, hspec.1 ans hans⟩

/-- The unit square at the origin. -/
def unitSquare : Rect := ⟨⟨0, 0, 1, 1⟩, by decide, by decide⟩

/-- There is no result for 400005 rectangles: their segments do not fit in `Seg`. -/
theorem not_area_of_many :
    ¬ ∃ ans, main sortByHeight (fun _ => 0) (List.replicate 400005 unitSquare) = some ans ∧
      volume (⋃ b ∈ List.replicate 400005 unitSquare, b.region) = ENNReal.ofReal ans := by
  rintro ⟨ans, hans, -⟩
  rw [main, List.length_replicate, if_neg (by decide)] at hans
  exact absurd hans nofun

end CxxPandora.SweepLine
