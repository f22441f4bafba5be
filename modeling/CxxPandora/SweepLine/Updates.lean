import CxxPandora.Lib.Area
import CxxPandora.SweepLine.Tree

/-!
# Sequences of updates

The calls of `update` of `dsaax/sweep_line/sweep_line.cpp` at the root of a built tree, each of
which opens an interval between two coordinates or closes an open one. `update` has no test for a
leaf: `Maintains` says that it does not go on below one, that no count gets negative, and that the
length at the root is that of the union of the open intervals. `updates_spec` says that this holds
as long as the arrays are large enough and nothing overflows, and when that is so.
-/

namespace CxxPandora.SweepLine

open Lib MeasureTheory

/-! ## The calls -/

/-- The compressed coordinates, in `X[1]` to `X[cnt]`. -/
structure Coordinates where
  X : ℕ → ℤ
  cnt : ℕ
  two_le : 2 ≤ cnt
  strictMono : StrictMonoOn X (Set.Icc 1 cnt)

/-- The arguments of a call of `update` at the root. -/
structure Call where
  L : ℤ
  R : ℤ
  val : ℤ
  deriving DecidableEq, Repr

/-- `Build(1, 1, cnt - 1)`. The array holds zeros before. -/
def built (c : Coordinates) : Option (ℕ → SegTree) :=
  Build (fun _ => ⟨0, 0, 0, 0⟩) 1 1 (c.cnt - 1)

/-- The calls, one after the other. -/
def updates (X : ℕ → ℤ) (Tree : ℕ → SegTree) (calls : List Call) : Option (ℕ → SegTree) :=
  calls.foldlM (fun Tree call => update X Tree 1 call.L call.R call.val) Tree

/-- The intervals `S` are open after the calls. Each call opens an interval between two coordinates,
or closes one that is open. -/
inductive Opens (c : Coordinates) : List Call → Multiset (ℤ × ℤ) → Prop
  | nil : Opens c [] 0
  | opening {calls : List Call} {S : Multiset (ℤ × ℤ)} {i j : ℕ} : Opens c calls S →
      i ∈ Set.Icc 1 c.cnt → j ∈ Set.Icc 1 c.cnt → c.X i < c.X j →
      Opens c (calls ++ [⟨c.X i, c.X j, 1⟩]) ((c.X i, c.X j) ::ₘ S)
  | closing {calls : List Call} {S : Multiset (ℤ × ℤ)} {L R : ℤ} : Opens c calls ((L, R) ::ₘ S) →
      Opens c (calls ++ [⟨L, R, -1⟩]) S

/-- `update` for node `k` goes on to its children: the interval neither misses nor covers the
node. -/
def GoesOn (X : ℕ → ℤ) (call : Call) (Tree : ℕ → SegTree) (k : ℕ) : Prop :=
  ¬ Misses X (Tree k).l (Tree k).r (call.L, call.R) ∧
    ¬ Covers X (Tree k).l (Tree k).r (call.L, call.R)

/-- `update` for node `k` of the array `Tree` calls `update` for node `j` when the array is `T`, or
is that call itself. -/
inductive Calls (X : ℕ → ℤ) (call : Call) (T : ℕ → SegTree) (j : ℕ) : (ℕ → SegTree) → ℕ → Prop
  | self : Calls X call T j T j
  | left {Tree : ℕ → SegTree} {k : ℕ} : GoesOn X call Tree k →
      Calls X call T j Tree (2 * k) → Calls X call T j Tree k
  | right {Tree Tree₁ : ℕ → SegTree} {k : ℕ} : GoesOn X call Tree k →
      update X Tree (2 * k) call.L call.R call.val = some Tree₁ →
      Calls X call T j Tree₁ (2 * k + 1) → Calls X call T j Tree k

/-- What the calls maintain, that have made `Tree'` of the built tree `Tree`. -/
structure Maintains (c : Coordinates) (calls : List Call) (S : Multiset (ℤ × ℤ))
    (Tree Tree' : ℕ → SegTree) : Prop where
  /-- A next call gets to nodes of the tree only, and does not go on below a leaf. -/
  calls_node : ∀ call S', Opens c (calls ++ [call]) S' → ∀ T j, Calls c.X call T j Tree' 1 →
    Node Tree j 1 ∧ j < treeSize ∧ ((T j).l = (T j).r → ¬ GoesOn c.X call T j)
  /-- The counts are not negative. -/
  sum_nonneg : ∀ j, Node Tree j 1 → 0 ≤ (Tree' j).sum
  /-- The length at the root is not negative. -/
  len_nonneg : 0 ≤ (Tree' 1).len
  /-- The length at the root is the length of the union of the open intervals. -/
  len_eq : volume (⋃ I ∈ S, Set.Ico (I.1 : ℝ) I.2) = ENNReal.ofReal (Tree' 1).len

/-- The tree is built and the calls return, and they maintain it. -/
def Exact (c : Coordinates) (calls : List Call) (S : Multiset (ℤ × ℤ)) : Prop :=
  ∃ Tree Tree', built c = some Tree ∧ updates c.X Tree calls = some Tree' ∧
    Maintains c calls S Tree Tree'

/-! ## The coordinates -/

section Coordinates

variable {c : Coordinates} {calls : List Call} {call : Call} {S S' : Multiset (ℤ × ℤ)}

/-- The number of coordinates is one more than that of elementary intervals. -/
theorem Coordinates.sub_add (c : Coordinates) : c.cnt - 1 + 1 = c.cnt :=
  Nat.sub_add_cancel (Nat.one_le_of_lt c.two_le)

/-- The coordinates under the tree are strictly increasing. -/
theorem Coordinates.strictMonoOn (c : Coordinates) :
    StrictMonoOn c.X (Set.Icc 1 (c.cnt - 1 + 1)) := by
  rw [c.sub_add]
  exact c.strictMono

/-- An interval between two coordinates cuts no elementary interval, and is between the first and
the last coordinate. -/
structure Fitting (c : Coordinates) (I : ℤ × ℤ) : Prop where
  aligned : Aligned c.X 1 (c.cnt - 1) I
  le_fst : c.X 1 ≤ I.1
  snd_le : I.2 ≤ c.X c.cnt

/-- Two coordinates. -/
theorem fitting_of_mem {i j : ℕ} (hi : i ∈ Set.Icc 1 c.cnt) (hj : j ∈ Set.Icc 1 c.cnt) :
    Fitting c (c.X i, c.X j) := by
  have htwo := c.two_le
  refine ⟨?_, ?_, ?_⟩
  · refine aligned_of_points c.strictMonoOn ?_ ?_
    · rwa [c.sub_add]
    · rwa [c.sub_add]
  · exact c.strictMono.monotoneOn ⟨le_rfl, by omega⟩ hi hi.1
  · exact c.strictMono.monotoneOn hj ⟨by omega, le_rfl⟩ hj.2

/-- The open intervals are between coordinates. -/
theorem Opens.fitting (h : Opens c calls S) : ∀ I ∈ S, Fitting c I := by
  induction h with
  | nil => exact fun I hI => absurd hI (Multiset.notMem_zero I)
  | opening _ hi hj _ ih =>
    intro I hI
    rcases Multiset.mem_cons.mp hI with rfl | hI
    · exact fitting_of_mem hi hj
    · exact ih I hI
  | closing _ ih => exact fun I hI => ih I (Multiset.mem_cons_of_mem hI)

/-- The last call opens or closes an interval between coordinates. -/
theorem Opens.last (h : Opens c (calls ++ [call]) S') :
    ∃ S, Opens c calls S ∧ Change call.val (call.L, call.R) S S' ∧
      Fitting c (call.L, call.R) := by
  generalize hall : calls ++ [call] = all at h
  cases h with
  | nil => exact absurd hall (List.concat_ne_nil _ _)
  | opening hopens hi hj _ =>
    obtain ⟨rfl, hcall⟩ := List.append_inj' hall rfl
    obtain rfl := List.singleton_inj.mp hcall
    exact ⟨_, hopens, .inl ⟨rfl, rfl⟩, fitting_of_mem hi hj⟩
  | closing hopens =>
    obtain ⟨rfl, hcall⟩ := List.append_inj' hall rfl
    obtain rfl := List.singleton_inj.mp hcall
    exact ⟨_, hopens, .inr ⟨rfl, rfl⟩, hopens.fitting _ (Multiset.mem_cons_self _ _)⟩

/-- The covered length is the length of the union of the intervals. -/
theorem coveredLength_eq_volume (hS : ∀ I ∈ S, Fitting c I) :
    volume (⋃ I ∈ S, Set.Ico (I.1 : ℝ) I.2) =
      ENNReal.ofReal (coveredLength c.X 1 (c.cnt - 1) S : ℤ) := by
  classical
  have htwo := c.two_le
  rw [volume_iUnion_Ico, coveredLength_eq_card c.strictMonoOn (by omega) fun I hI =>
    (hS I hI).aligned, c.sub_add]
  -- No point of an interval is left of the first coordinate or right of the last.
  have hpoints : points S = (Finset.Ico (c.X 1) (c.X c.cnt)).filter
      fun x => ∃ I ∈ S, I.1 ≤ x ∧ x < I.2 := by
    ext x
    rw [mem_points, Finset.mem_filter, Finset.mem_Ico, iff_and_self]
    rintro ⟨I, hI, hl, hr⟩
    exact ⟨(hS I hI).le_fst.trans hl, hr.trans_le (hS I hI).snd_le⟩
  rw [hpoints, Int.cast_natCast, ENNReal.ofReal_natCast]

end Coordinates

/-! ## One call -/

section Update

variable {X : ℕ → ℤ} {Tree Tree' T : ℕ → SegTree} {k j l r : ℕ} {call : Call} {L R val : ℤ}

/-- The arrays have the same ranges. -/
def SameRanges (Tree Tree' : ℕ → SegTree) : Prop :=
  ∀ j, (Tree' j).l = (Tree j).l ∧ (Tree' j).r = (Tree j).r

/-- The same ranges twice. -/
theorem SameRanges.trans {Tree₁ : ℕ → SegTree} (h : SameRanges Tree Tree₁)
    (h' : SameRanges Tree₁ Tree') : SameRanges Tree Tree' :=
  fun j => ⟨(h' j).1.trans (h j).1, (h' j).2.trans (h j).2⟩

/-- A new count and a new length of a node. -/
theorem sameRanges_update (sum len : ℤ) :
    SameRanges Tree (Function.update Tree k ⟨(Tree k).l, (Tree k).r, sum, len⟩) := by
  intro j
  by_cases hj : j = k
  · rw [hj, Function.update_self]
    exact ⟨rfl, rfl⟩
  · rw [Function.update_of_ne hj]
    exact ⟨rfl, rfl⟩

/-- `pushup` keeps the ranges. -/
theorem pushup_sameRanges (h : pushup X Tree k = some Tree') : SameRanges Tree Tree' := by
  unfold pushup at h
  dsimp only at h
  split_ifs at h
  · obtain ⟨len, -, rfl⟩ := Option.map_eq_some_iff.mp h
    exact sameRanges_update _ len
  · obtain ⟨len, -, rfl⟩ := Option.map_eq_some_iff.mp h
    exact sameRanges_update _ len

/-- `update` keeps the ranges. -/
theorem update_sameRanges (h : update X Tree k L R val = some Tree') : SameRanges Tree Tree' := by
  induction hn : treeSize - k using Nat.strong_induction_on generalizing k Tree Tree' with
  | _ n ih =>
    rw [update] at h
    dsimp only at h
    split_ifs at h with hbound
    · obtain rfl := Option.some.inj h
      exact fun _ => ⟨rfl, rfl⟩
    · obtain ⟨sum, -, h⟩ := Option.bind_eq_some_iff.mp h
      exact (sameRanges_update sum _).trans (pushup_sameRanges h)
    · obtain ⟨T₁, hleft, h⟩ := Option.bind_eq_some_iff.mp h
      obtain ⟨T₂, hright, h⟩ := Option.bind_eq_some_iff.mp h
      exact ((ih _ (by omega) hleft rfl).trans (ih _ (by omega) hright rfl)).trans
        (pushup_sameRanges h)

/-- A call that goes on makes one call for each child, and then computes the length again. -/
theorem update_of_goesOn (h : GoesOn X call Tree k) :
    update X Tree k call.L call.R call.val =
      if 0 < k ∧ k < treeSize ∧ (Tree k).r + 1 < segSize then
        (update X Tree (2 * k) call.L call.R call.val).bind fun Tree =>
          (update X Tree (2 * k + 1) call.L call.R call.val).bind fun Tree => pushup X Tree k
      else none := by
  have hroot : Tree k = ⟨(Tree k).l, (Tree k).r, (Tree k).sum, (Tree k).len⟩ := rfl
  rw [update_eq hroot, if_neg h.1, if_neg h.2]

/-- All calls that a call makes return, if it does. -/
theorem Calls.returns (h : Calls X call T j Tree k)
    (hupd : update X Tree k call.L call.R call.val = some Tree') :
    ∃ T', update X T j call.L call.R call.val = some T' := by
  induction h generalizing Tree' with
  | self => exact ⟨Tree', hupd⟩
  | left hgoes _ ih =>
    rw [update_of_goesOn hgoes, Option.ite_none_right_eq_some] at hupd
    obtain ⟨T₁, hleft, -⟩ := Option.bind_eq_some_iff.mp hupd.2
    exact ih hleft
  | right hgoes hleft _ ih =>
    rw [update_of_goesOn hgoes, Option.ite_none_right_eq_some, hleft, Option.bind_some] at hupd
    obtain ⟨T₂, hright, -⟩ := Option.bind_eq_some_iff.mp hupd.2
    exact ih hright

/-- At a node with one elementary interval, which the interval does not cut, `update` does not go
on. -/
theorem not_goesOn_of_leaf (hI : Aligned X (Tree k).l (Tree k).r (call.L, call.R))
    (hlr : (Tree k).l = (Tree k).r) : ¬ GoesOn X call Tree k := by
  rintro ⟨hmiss, hcovers⟩
  rw [← hlr] at hI hmiss hcovers
  exact hcovers ((hI _ le_rfl le_rfl).resolve_left hmiss)

/-- The calls get to nodes of the tree only, and do not go on below a leaf. -/
theorem calls_node {t : CoverTree ℤ l r} (hk : 0 < k) (ht : Represents Tree k t)
    (hI : Aligned X l r (call.L, call.R)) (h : Calls X call T j Tree k) :
    Node Tree j k ∧ ((T j).l = (T j).r → ¬ GoesOn X call T j) := by
  -- A node that the call goes on from is not a leaf.
  have hleaf : ∀ {Tree : ℕ → SegTree} {k l r : ℕ} {t : CoverTree ℤ l r}, Represents Tree k t →
      Aligned X l r (call.L, call.R) → (Tree k).l = (Tree k).r → ¬ GoesOn X call Tree k := by
    intro Tree k l r t ht hI hlr
    obtain ⟨hl, hr, -⟩ := ht.root
    exact not_goesOn_of_leaf (by rwa [hl, hr]) hlr
  induction h generalizing l r with
  | self => exact ⟨.root, hleaf ht hI⟩
  | @left Tree k hgoes _ ih =>
    have hne := fun hlr => hleaf ht hI hlr hgoes
    cases t with
    | leaf => exact absurd (by rw [ht.1]) hne
    | node sum len left right =>
      have hle := right.le
      obtain ⟨hnode, hstop⟩ := ih (by omega) ht.2.1 (hI.mono le_rfl (by omega))
      exact ⟨.left hne hnode, hstop⟩
  | @right Tree Tree₁ k hgoes hleft _ ih =>
    have hne := fun hlr => hleaf ht hI hlr hgoes
    cases t with
    | leaf => exact absurd (by rw [ht.1]) hne
    | node sum len left right =>
      have hle := left.le
      have hle' := right.le
      -- The call for the left child leaves the right subtree alone.
      obtain ⟨-, hsame⟩ := update_spec (by omega) ht.2.1 (hI.mono le_rfl (by omega)) hleft
      obtain ⟨hnode, hstop⟩ := ih (by omega) (ht.2.2.right_of_left hk hsame)
        (hI.mono (by omega) le_rfl)
      refine ⟨.right hne (hnode.congr fun i _ => ?_), hstop⟩
      exact ⟨(update_sameRanges hleft i).1.symm, (update_sameRanges hleft i).2.symm⟩

end Update

/-! ## The calls one after the other -/

section Updates

variable {c : Coordinates} {calls : List Call} {call : Call} {S S' : Multiset (ℤ × ℤ)}
  {Tree Tree' : ℕ → SegTree}

/-- One more call. -/
theorem updates_snoc {X : ℕ → ℤ} :
    updates X Tree (calls ++ [call]) =
      (updates X Tree calls).bind fun Tree => update X Tree 1 call.L call.R call.val := by
  rw [updates, List.foldlM_append]
  refine congrArg _ (funext fun T => ?_)
  exact bind_pure _

/-- The array represents a tree with the built ranges that counts the open intervals, and whose
height is logarithmic. -/
structure Counted (c : Coordinates) (Tree Tree' : ℕ → SegTree) (S : Multiset (ℤ × ℤ))
    (t : CoverTree ℤ 1 (c.cnt - 1)) : Prop where
  represents : Represents Tree' 1 t
  counts : t.Counts c.X S
  height_le : ∀ d, c.cnt - 1 - 1 < 2^d → t.height ≤ d
  sameRanges : SameRanges Tree Tree'

/-- The built tree counts nothing. -/
theorem counted_built (h : built c = some Tree) : ∃ t, Counted c Tree Tree 0 t := by
  have htwo := c.two_le
  obtain ⟨⟨t, ht, hcounts, hheight⟩, -⟩ :=
    Build_spec c.X Nat.one_pos (show 1 ≤ c.cnt - 1 by omega) (fun _ _ => rfl) h
  exact ⟨t, ht, hcounts, hheight, fun _ => ⟨rfl, rfl⟩⟩

/-- A call changes what is counted. -/
theorem Counted.update {Tree₁ : ℕ → SegTree} {t : CoverTree ℤ 1 (c.cnt - 1)}
    (h : Counted c Tree Tree₁ S t) (hchange : Change call.val (call.L, call.R) S S')
    (hfit : Fitting c (call.L, call.R))
    (hupd : update c.X Tree₁ 1 call.L call.R call.val = some Tree') :
    Counted c Tree Tree' S' (t.update c.X (call.L, call.R) call.val) where
  represents := (update_spec Nat.one_pos h.represents hfit.aligned hupd).1
  counts := h.counts.update c.strictMonoOn hfit.aligned hchange
  height_le d hd := by
    rw [CoverTree.height_update]
    exact h.height_le d hd
  sameRanges := h.sameRanges.trans (update_sameRanges hupd)

/-- After the calls the tree counts the open intervals. -/
theorem Opens.counted (h : Opens c calls S) (hbuilt : built c = some Tree)
    (hupd : updates c.X Tree calls = some Tree') : ∃ t, Counted c Tree Tree' S t := by
  induction calls using List.reverseRecOn generalizing S Tree' with
  | nil =>
    obtain rfl := Option.some.inj hupd
    generalize hall : ([] : List Call) = all at h
    cases h with
    | nil => exact counted_built hbuilt
    | opening => exact absurd hall.symm (List.concat_ne_nil _ _)
    | closing => exact absurd hall.symm (List.concat_ne_nil _ _)
  | append_singleton calls call ih =>
    rw [updates_snoc] at hupd
    obtain ⟨Tree₁, hupd₁, hupd⟩ := Option.bind_eq_some_iff.mp hupd
    obtain ⟨S₁, hopens, hchange, hfit⟩ := h.last
    obtain ⟨t, ht⟩ := ih hopens hupd₁
    exact ⟨_, ht.update hchange hfit hupd⟩

/-- A tree that counts the open intervals is as it should be. -/
theorem Counted.maintains {t : CoverTree ℤ 1 (c.cnt - 1)} (h : Counted c Tree Tree' S t)
    (hopens : Opens c calls S) (hbuilt : built c = some Tree) :
    Maintains c calls S Tree Tree' := by
  have htwo := c.two_le
  have hnode : ∀ {j}, Node Tree' j 1 → Node Tree j 1 := fun hj => hj.congr fun i _ =>
    ⟨(h.sameRanges i).1.symm, (h.sameRanges i).2.symm⟩
  have hroot : (Tree' 1).len = coveredLength c.X 1 (c.cnt - 1) S :=
    h.represents.root.2.2.trans h.counts.len_eq
  have hall := h.counts.all c.strictMonoOn le_rfl le_rfl
  constructor
  -- The calls stay in the tree, which has the ranges of the built one.
  · intro call S' hnext T j hcalls
    obtain ⟨S₁, -, -, hfit⟩ := hnext.last
    obtain ⟨hj, hstop⟩ := calls_node Nat.one_pos h.represents hfit.aligned hcalls
    obtain ⟨-, -, hlt⟩ :=
      Build_spec c.X Nat.one_pos (show 1 ≤ c.cnt - 1 by omega) (fun _ _ => rfl) hbuilt
    exact ⟨hnode hj, hlt j (hnode hj), hstop⟩
  -- Each count is a number of open intervals.
  · intro j hj
    exact h.represents.sum_of_all (P := (0 ≤ ·)) (hall.imp fun _ _ hle => hle.1)
      (hj.congr fun i _ => h.sameRanges i)
  · rw [hroot]
    exact (coveredLength_bounds c.strictMonoOn (by omega)).1
  · rw [hroot]
    exact coveredLength_eq_volume hopens.fitting

/-- The tree is built when there are at most 262145 coordinates: it has at most 18 levels below its
root. -/
theorem built_isSome (hcnt : c.cnt ≤ 262145) : ∃ Tree, built c = some Tree := by
  have htwo := c.two_le
  exact Build_isSome (d := 18) Nat.one_pos (by omega) (by omega) (by decide)

/-- The calls return when there are at most 262145 coordinates, the distance of the first from the
last fits in a `long long`, and the number of open intervals always fits in an `int`. -/
theorem Opens.updates_isSome (h : Opens c calls S) (hbuilt : built c = some Tree)
    (hcnt : c.cnt ≤ 262145) (hwidth : c.X c.cnt - c.X 1 < 2^63)
    (hcard : ∀ pre S', pre <+: calls → Opens c pre S' → S'.card < 2^31) :
    ∃ Tree', updates c.X Tree calls = some Tree' := by
  induction calls using List.reverseRecOn generalizing S with
  | nil => exact ⟨Tree, rfl⟩
  | append_singleton calls call ih =>
    obtain ⟨S₁, hopens, hchange, hfit⟩ := h.last
    obtain ⟨Tree₁, hupd₁⟩ := ih hopens fun pre S' hpre =>
      hcard pre S' (hpre.trans (List.prefix_append ..))
    obtain ⟨t, ht⟩ := hopens.counted hbuilt hupd₁
    -- The one call more is defined, since what the updated tree counts fits.
    rw [updates_snoc, hupd₁, Option.bind_some]
    refine ht.represents.update_isSome c.strictMonoOn hfit.aligned
      (ht.counts.update c.strictMonoOn hfit.aligned hchange) (ht.height_le 18 (by omega)) ?_
      (hcard _ _ List.prefix_rfl h) ?_
    · rw [c.sub_add]
      unfold segSize
      omega
    · rwa [c.sub_add]

/-- For all coordinates and every sequence of calls, each of which opens an interval or closes an
open one: as long as the tree can be built in the array and the calls return, which is without an
access out of the arrays and without an overflow, the tree is maintained. It can be built and the
calls return when the coordinates and the open intervals are not too many and not too far apart. -/
theorem updates_spec (c : Coordinates) (calls : List Call) (S : Multiset (ℤ × ℤ))
    (hopens : Opens c calls S) :
    (∀ Tree Tree', built c = some Tree → updates c.X Tree calls = some Tree' →
      Maintains c calls S Tree Tree') ∧
    (c.cnt ≤ 262145 → c.X c.cnt - c.X 1 < 2^63 →
      (∀ pre S', pre <+: calls → Opens c pre S' → S'.card < 2^31) → Exact c calls S) := by
  have hmaintains : ∀ Tree Tree', built c = some Tree → updates c.X Tree calls = some Tree' →
      Maintains c calls S Tree Tree' := by
    intro Tree Tree' hbuilt hupd
    obtain ⟨t, ht⟩ := hopens.counted hbuilt hupd
    exact ht.maintains hopens hbuilt
  refine ⟨hmaintains, fun hcnt hwidth hcard => ?_⟩
  obtain ⟨Tree, hbuilt⟩ := built_isSome hcnt
  obtain ⟨Tree', hupd⟩ := hopens.updates_isSome hbuilt hcnt hwidth hcard
  exact ⟨Tree, Tree', hbuilt, hupd, hmaintains Tree Tree' hbuilt hupd⟩

/-- Each open interval has been opened by a call. -/
theorem Opens.card_le (h : Opens c calls S) : S.card ≤ calls.length := by
  induction h with
  | nil => exact le_rfl
  | opening _ _ _ _ ih =>
    rw [Multiset.card_cons, List.length_append]
    exact Nat.succ_le_succ ih
  | closing _ ih =>
    rw [Multiset.card_cons] at ih
    rw [List.length_append]
    exact (Nat.le_of_succ_le ih).trans (Nat.le_add_right _ _)

/-- Four coordinates. -/
def upToFour : Coordinates where
  X i := i
  cnt := 4
  two_le := by decide
  strictMono _ _ _ _ hij := Int.ofNat_lt.mpr hij

/-- An interval is opened within another one, which is closed before it. -/
theorem opens_within :
    Opens upToFour [⟨1, 4, 1⟩, ⟨2, 3, 1⟩, ⟨1, 4, -1⟩] ((2, 3) ::ₘ 0) := by
  have houter : Opens upToFour [⟨1, 4, 1⟩] ((1, 4) ::ₘ 0) :=
    .opening (i := 1) (j := 4) .nil (by decide) (by decide) (by decide)
  have hinner : Opens upToFour [⟨1, 4, 1⟩, ⟨2, 3, 1⟩] ((2, 3) ::ₘ (1, 4) ::ₘ 0) :=
    .opening (i := 2) (j := 3) houter (by decide) (by decide) (by decide)
  rw [Multiset.cons_swap] at hinner
  exact .closing hinner

/-- The tree is maintained when an interval is closed before another one within it. -/
theorem updates_spec_within :
    Exact upToFour [⟨1, 4, 1⟩, ⟨2, 3, 1⟩, ⟨1, 4, -1⟩] ((2, 3) ::ₘ 0) := by
  refine (updates_spec upToFour _ _ opens_within).2 (by decide) (by decide) fun pre S' hpre h => ?_
  have hle := h.card_le.trans hpre.length_le
  rw [List.length_cons, List.length_cons, List.length_cons, List.length_nil] at hle
  omega

/-- The least and the greatest `long long`. -/
def extremes : Coordinates where
  X i := if i ≤ 1 then longMin else longMax
  cnt := 2
  two_le := le_rfl
  strictMono i hi j hj hij := by
    have hi' : i ≤ 1 := by
      have hle := hj.2
      omega
    have hj' : ¬ j ≤ 1 := by
      have hle := hi.1
      omega
    show (if i ≤ 1 then longMin else longMax) < if j ≤ 1 then longMin else longMax
    rw [if_pos hi', if_neg hj']
    decide

/-- The call that opens the interval between them overflows. -/
theorem updates_extremes : (built extremes).bind (fun Tree =>
    updates extremes.X Tree [⟨longMin, longMax, 1⟩]) = none := by
  have hbuilt : built extremes = some (Function.update (fun _ => ⟨0, 0, 0, 0⟩) 1 ⟨1, 1, 0, 0⟩) := by
    rw [built, Build, if_pos (by decide)]
    exact if_pos rfl
  -- The one node is not missed, it is covered, and its length overflows.
  rw [hbuilt, Option.bind_some, updates, List.foldlM_cons, update_eq (Function.update_self ..),
    if_pos (by decide), if_neg (by decide), if_pos (by decide)]
  rfl

/-- As many coordinates as `X` has elements, which begin with `X[0]`. -/
def tooMany : Coordinates where
  X i := i
  cnt := segSize
  two_le := by decide
  strictMono _ _ _ _ hij := Int.ofNat_lt.mpr hij

/-- A call reads `X[cnt]`, which is behind the array. -/
theorem updates_tooMany {Tree : ℕ → SegTree} (h : built tooMany = some Tree) (call : Call) :
    updates tooMany.X Tree [call] = none := by
  obtain ⟨t, ht⟩ := counted_built h
  obtain ⟨-, hr, -⟩ := ht.represents.root
  rw [updates, List.foldlM_cons, update, if_neg]
  · rfl
  · rw [hr]
    decide

/-- The tree is not maintained when an interval is too long for a `long long`, nor when there are as
many coordinates as `X` has elements. -/
theorem not_exact :
    (Opens extremes [⟨longMin, longMax, 1⟩] ((longMin, longMax) ::ₘ 0) ∧
      ¬ Exact extremes [⟨longMin, longMax, 1⟩] ((longMin, longMax) ::ₘ 0)) ∧
    Opens tooMany [⟨1, 2, 1⟩] ((1, 2) ::ₘ 0) ∧ ¬ Exact tooMany [⟨1, 2, 1⟩] ((1, 2) ::ₘ 0) := by
  refine ⟨⟨.opening (i := 1) (j := 2) .nil (by decide) (by decide) (by decide), ?_⟩,
    .opening (i := 1) (j := 2) .nil (by decide) (by decide) (by decide), ?_⟩
  · rintro ⟨Tree, Tree', hbuilt, hupd, -⟩
    have hnone := updates_extremes
    rw [hbuilt, Option.bind_some, hupd] at hnone
    exact absurd hnone (Option.some_ne_none _)
  · rintro ⟨Tree, Tree', hbuilt, hupd, -⟩
    rw [updates_tooMany hbuilt] at hupd
    exact absurd hupd.symm (Option.some_ne_none _)

end Updates

end CxxPandora.SweepLine
